import Msrs.Watchdog.Machine

/-!
# The watchdog against its history

What the watchdog is for, said without a state: the alarms of a step are a function of the
triggers so far and the alarms so far (`prescribedAlarms`). `Tracks` relates the machine to the
history; every step answers as prescribed and keeps it, so whole traces agree
(`watchdog_trace`).
-/

namespace Msrs

/-! ## The specification -/

/-- The time of a cycle with events. -/
def fedAt (trigger : Trigger (Cycle Feed)) : Option Nat :=
  trigger.message?.bind fun c => if c.events.isEmpty then none else some c.nowNs

/-- The times of the cycles with events, in order. -/
def fed (past : List (Trigger (Cycle Feed))) : List Nat := past.filterMap fedAt

/-- The last alarm is `Tripped`. -/
def lastTripped (alarms : List Alarm) : Bool :=
  match alarms.getLast? with
  | some (.tripped _) => true
  | _ => false

/-- The alarms of one step. The first feed arms and a feed after a trip recovers; an empty cycle
trips once the latest feed is longer ago than the timeout. -/
def prescribedAlarms (past : List (Trigger (Cycle Feed))) (answers : List (List Alarm)) :
    Trigger (Cycle Feed) → List Alarm
  | .tick _ => []
  | .message c =>
    if c.events.isEmpty then
      match (fed past).getLast? with
      | none => []
      | some t =>
        if lastTripped answers.flatten = false ∧ timeoutNs < c.nowNs - t then
          [.tripped (c.nowNs - t)]
        else []
    else if fed past = [] then [.armed]
    else if lastTripped answers.flatten then [.recovered]
    else []

/-- A trip is prescribed only for an empty cycle, with the time since the latest feed. -/
theorem silence_of_tripped {past : List (Trigger (Cycle Feed))} {answers : List (List Alarm)}
    {c : Cycle Feed} {d : Nat} (h : .tripped d ∈ prescribedAlarms past answers (.message c)) :
    c.events = [] ∧ ∃ t, (fed past).getLast? = some t ∧ timeoutNs < d ∧ d = c.nowNs - t := by
  simp only [prescribedAlarms] at h
  by_cases hempty : c.events.isEmpty = true
  · rw [if_pos hempty] at h
    refine ⟨List.isEmpty_iff.mp hempty, ?_⟩
    cases hlast : (fed past).getLast? with
    | none => simp [hlast] at h
    | some t =>
      simp only [hlast] at h
      by_cases hlate : lastTripped answers.flatten = false ∧ timeoutNs < c.nowNs - t
      · rw [if_pos hlate, List.mem_singleton] at h
        obtain rfl : d = c.nowNs - t := Alarm.tripped.inj h
        exact ⟨t, rfl, hlate.2, rfl⟩
      · simp [if_neg hlate] at h
  · rw [if_neg hempty] at h
    by_cases hfirst : fed past = []
    · simp [if_pos hfirst] at h
    · rw [if_neg hfirst] at h
      by_cases htrip : lastTripped answers.flatten = true
      · simp [if_pos htrip] at h
      · simp [if_neg htrip] at h

/-! ## The simulation -/

/-- A machine between two steps, against the triggers and the alarms so far. -/
structure Tracks (m : WatchdogMachine) (past : List (Trigger (Cycle Feed)))
    (answers : List (List Alarm)) : Prop where
  emitted : m.ctx.emitted = []
  timeout : m.ctx.store.timeoutNs = timeoutNs
  lastFeed : m.ctx.store.lastFeedNs = (fed past).getLast?
  idle : m.state = .idle ↔ fed past = []
  tripped : m.state = .tripped ↔ lastTripped answers.flatten = true

theorem tracks_default : Tracks .default [] [] :=
  ⟨rfl, rfl, rfl, by simp [WatchdogMachine.default, fed],
    by simp [WatchdogMachine.default, lastTripped]⟩

section Step

variable {m : WatchdogMachine} {past : List (Trigger (Cycle Feed))} {answers : List (List Alarm)}
  {c : Cycle Feed}

theorem fed_tick (ns : Nat) : fed (past ++ [.tick ns]) = fed past := by
  simp [fed, fedAt, Trigger.message?]

theorem fed_silent (hc : c.events = []) : fed (past ++ [.message c]) = fed past := by
  simp [fed, fedAt, Trigger.message?, hc]

theorem fed_fed (hc : c.events ≠ []) : fed (past ++ [.message c]) = fed past ++ [c.nowNs] := by
  simp [fed, fedAt, Trigger.message?, hc]

theorem lastTripped_nothing (answers : List (List Alarm)) :
    lastTripped (answers ++ [[]]).flatten = lastTripped answers.flatten := by
  simp

theorem lastTripped_one (answers : List (List Alarm)) (a : Alarm) :
    lastTripped (answers ++ [[a]]).flatten = lastTripped [a] := by
  simp [lastTripped]

theorem Tracks.expired (h : Tracks m past answers) (nowNs : Nat) :
    m.ctx.store.expired nowNs = true ↔
      ∃ t, (fed past).getLast? = some t ∧ timeoutNs < nowNs - t := by
  rw [← h.lastFeed, ← h.timeout]
  cases hlast : m.ctx.store.lastFeedNs with
  | none => simp [WatchdogStore.expired, hlast]
  | some t => simp [WatchdogStore.expired, WatchdogStore.silentNs, hlast]

/-- A step that changes neither state nor store nor history of feeds, and emits nothing. -/
theorem Tracks.keep {m' : WatchdogMachine} {trigger : Trigger (Cycle Feed)}
    (h : Tracks m past answers) (hstate : m'.state = m.state)
    (hstore : m'.ctx.store = m.ctx.store) (hemitted : m'.ctx.emitted = [])
    (hfed : fed (past ++ [trigger]) = fed past) :
    Tracks m' (past ++ [trigger]) (answers ++ [[]]) := by
  refine ⟨hemitted, ?_, ?_, ?_, ?_⟩
  · rw [hstore]
    exact h.timeout
  · rw [hstore, hfed]
    exact h.lastFeed
  · rw [hstate, hfed]
    exact h.idle
  · rw [hstate, lastTripped_nothing]
    exact h.tripped

theorem Tracks.step_tick (h : Tracks m past answers) (ns : Nat) :
    (watchdog.runStepAll m (.tick ns)).2 = prescribedAlarms past answers (.tick ns) ∧
      Tracks (watchdog.runStepAll m (.tick ns)).1 (past ++ [.tick ns])
        (answers ++ [prescribedAlarms past answers (.tick ns)]) :=
  ⟨rfl, h.keep rfl rfl h.emitted (fed_tick ns)⟩

/-- A cycle with events: where the machine stands decides between `Armed`, `Recovered` and
nothing, and so does the history. -/
theorem Tracks.step_fed (h : Tracks m past answers) (hc : c.events ≠ []) :
    (watchdog.runStepAll m (.message c)).2 = prescribedAlarms past answers (.message c) ∧
      Tracks (watchdog.runStepAll m (.message c)).1 (past ++ [.message c])
        (answers ++ [prescribedAlarms past answers (.message c)]) := by
  rw [WatchdogMachine.step_fed h.emitted hc]
  have hempty : ¬ c.events.isEmpty = true := by simpa using hc
  have hout : WatchdogMachine.feedAlarm m.state = prescribedAlarms past answers (.message c) := by
    refine Eq.trans ?_ (if_neg hempty).symm
    cases hstate : m.state with
    | idle => rw [if_pos (h.idle.mp hstate)]; rfl
    | armed =>
      have hfed : ¬ fed past = [] := fun hnil => by simpa [hstate] using h.idle.mpr hnil
      have htrip : ¬ lastTripped answers.flatten = true := fun htrip => by
        simpa [hstate] using h.tripped.mpr htrip
      rw [if_neg hfed, if_neg htrip]
      rfl
    | tripped =>
      have hfed : ¬ fed past = [] := fun hnil => by simpa [hstate] using h.idle.mpr hnil
      rw [if_neg hfed, if_pos (h.tripped.mp hstate)]
      rfl
  have hcalm : lastTripped (answers ++ [WatchdogMachine.feedAlarm m.state]).flatten = false := by
    cases hstate : m.state with
    | idle | tripped => exact lastTripped_one answers _
    | armed =>
      refine (lastTripped_nothing answers).trans ((Bool.not_eq_true _).mp fun htrip => ?_)
      simpa [hstate] using h.tripped.mpr htrip
  refine ⟨hout, rfl, h.timeout, ?_, ?_, ?_⟩
  · rw [fed_fed hc, List.getLast?_concat]
    rfl
  · simp [fed_fed hc]
  · rw [← hout, hcalm]
    simp

theorem Tracks.step_silent (h : Tracks m past answers) (hc : c.events = []) :
    (watchdog.runStepAll m (.message c)).2 = prescribedAlarms past answers (.message c) ∧
      Tracks (watchdog.runStepAll m (.message c)).1 (past ++ [.message c])
        (answers ++ [prescribedAlarms past answers (.message c)]) := by
  rw [WatchdogMachine.step_silent h.emitted hc]
  have hempty : c.events.isEmpty = true := by simp [hc]
  have harmed : m.state = .armed ↔ fed past ≠ [] ∧ lastTripped answers.flatten = false := by
    rw [← Bool.not_eq_true, ne_eq, ← h.idle, ← h.tripped]
    cases m.state <;> simp
  by_cases htrip : m.state = .armed ∧ m.ctx.store.expired c.nowNs = true
  · obtain ⟨t, hlast, hlate⟩ := (h.expired c.nowNs).mp htrip.2
    have hfed := (harmed.mp htrip.1).1
    have hsilent : m.ctx.store.silentNs c.nowNs = c.nowNs - t := by
      simp [WatchdogStore.silentNs, h.lastFeed, hlast]
    have hspec : prescribedAlarms past answers (.message c) = [.tripped (c.nowNs - t)] := by
      simp [prescribedAlarms, hempty, hlast, (harmed.mp htrip.1).2, hlate]
    rw [if_pos htrip, hspec, hsilent]
    refine ⟨rfl, h.emitted, h.timeout, ?_, ?_, ?_⟩
    · rw [fed_silent hc]
      exact h.lastFeed
    · rw [fed_silent hc]
      simpa using hfed
    · rw [lastTripped_one]
      simp [lastTripped]
  · have hspec : prescribedAlarms past answers (.message c) = [] := by
      refine (if_pos hempty).trans ?_
      cases hlast : (fed past).getLast? with
      | none => rfl
      | some t =>
        refine if_neg fun hlate => htrip ⟨harmed.mpr ⟨?_, hlate.1⟩, ?_⟩
        · intro hnil
          simp [hnil] at hlast
        · exact (h.expired c.nowNs).mpr ⟨t, hlast, hlate.2⟩
    rw [if_neg htrip, hspec]
    exact ⟨rfl, h.keep rfl rfl h.emitted (fed_silent hc)⟩

end Step

/-- Every step answers as prescribed and keeps the relation to the history. -/
theorem tracks_step (m : WatchdogMachine) (past : List (Trigger (Cycle Feed)))
    (answers : List (List Alarm)) (trigger : Trigger (Cycle Feed)) (h : Tracks m past answers) :
    (watchdog.runStepAll m trigger).2 = prescribedAlarms past answers trigger ∧
      Tracks (watchdog.runStepAll m trigger).1 (past ++ [trigger])
        (answers ++ [prescribedAlarms past answers trigger]) := by
  cases trigger with
  | tick ns => exact h.step_tick ns
  | message c =>
    by_cases hc : c.events = []
    · exact h.step_silent hc
    · exact h.step_fed hc

theorem tracks_run (triggers : List (Trigger (Cycle Feed))) :
    Tracks (Mealy.final watchdog.runStepAll .default triggers) triggers
      (Mealy.outputs watchdog.runStepAll .default triggers) :=
  (Mealy.prescribed_run watchdog.runStepAll tracks_step tracks_default triggers).2

/-- **The watchdog's trace is its specification's**, for every list of triggers; the machine is
idle exactly when no cycle had events, and tripped exactly when the last alarm is `Tripped`. -/
theorem watchdog_trace (triggers : List (Trigger (Cycle Feed))) :
    let alarms := Mealy.outputs watchdog.runStepAll watchdog.default triggers
    let m := Mealy.final watchdog.runStepAll watchdog.default triggers
    alarms = Mealy.prescribed prescribedAlarms [] [] triggers ∧
      (m.state = .idle ↔ ∀ c, .message c ∈ triggers → c.events = []) ∧
      (m.state = .tripped ↔ ∃ d, alarms.flatten.getLast? = some (.tripped d)) := by
  intro alarms m
  have hrun := Mealy.prescribed_run watchdog.runStepAll tracks_step tracks_default triggers
  have htracks : Tracks m triggers alarms := tracks_run triggers
  refine ⟨hrun.1, htracks.idle.trans ?_, htracks.tripped.trans ?_⟩
  · rw [fed, List.filterMap_eq_nil_iff]
    constructor
    · intro hall c hc
      simpa [fedAt, Trigger.message?] using hall _ hc
    · intro hall trigger ht
      cases trigger with
      | tick ns => rfl
      | message c => simp [fedAt, Trigger.message?, hall c ht]
  · unfold lastTripped
    cases hlast : alarms.flatten.getLast? with
    | none => simp
    | some a => cases a <;> simp

end Msrs
