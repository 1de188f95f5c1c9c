import Msrs.Watchdog.EndToEnd

/-!
# The negative control

`main.rs` clears the feeds of a recorded cycle that armed the watchdog and asserts that the
replay no longer passes. `control_detected` says so of every alarm of every run: clear the events
of a cycle that armed or recovered, or add events to one that tripped, and the machine, which has
come to that cycle as in the live run, answers it with nothing.
-/

namespace Msrs

open Fifo

/-! ## The machine -/

namespace WatchdogMachine

variable {m : WatchdogMachine} {c c' : Cycle Feed} {d : Nat}

/-- Only feeds arm or recover, so without them the machine is silent. -/
theorem step_cleared (hm : m.ctx.emitted = [])
    (h : .armed ∈ (watchdog.runStepAll m (.message c)).2 ∨
      .recovered ∈ (watchdog.runStepAll m (.message c)).2)
    (hc' : c'.events = []) : (watchdog.runStepAll m (.message c')).2 = [] := by
  have hc : c.events ≠ [] := by
    intro hc
    rw [step_silent hm hc] at h
    by_cases htrip : m.state = .armed ∧ m.ctx.store.expired c.nowNs = true
    · simp [if_pos htrip] at h
    · simp [if_neg htrip] at h
  have hstate : m.state ≠ .armed := by
    intro hstate
    simp [step_fed hm hc, hstate, feedAlarm] at h
  rw [step_silent hm hc', if_neg fun htrip => hstate htrip.1]

/-- Only an armed machine trips, so with feeds it is silent. -/
theorem step_added (hm : m.ctx.emitted = [])
    (h : .tripped d ∈ (watchdog.runStepAll m (.message c)).2) (hc' : c'.events ≠ []) :
    (watchdog.runStepAll m (.message c')).2 = [] := by
  have hc : c.events = [] := by
    by_contra hc
    rw [step_fed hm hc] at h
    cases hstate : m.state <;> simp [hstate, feedAlarm] at h
  rw [step_silent hm hc] at h
  have hstate : m.state = .armed := by
    by_contra hstate
    simp [hstate] at h
  rw [step_fed hm hc', hstate]
  rfl

end WatchdogMachine

/-! ## The control -/

/-- The events a control gives a cycle that recorded the alarms. -/
inductive Control (alarms : List Alarm) (events : List Feed) : List Feed → Prop
  /-- Clear the events of a cycle that armed or recovered. -/
  | clear (h : .armed ∈ alarms ∨ .recovered ∈ alarms) : Control alarms events []
  /-- Add events to a cycle that tripped, wherever and how many. -/
  | add {d : Nat} {events' : List Feed} (h : .tripped d ∈ alarms)
      (hsub : events.Sublist events') (hmore : events.length < events'.length) :
      Control alarms events events'

/-- The recorded step with other events in its cycle. -/
def Recorded.withEvents (r : Recorded (Cycle Feed) (Option (Batch Alarm))) (events : List Feed) :
    Recorded (Cycle Feed) (Option (Batch Alarm)) :=
  { r with input := { r.input with events } }

/-- `None` encodes, and no `Some` encodes to the same bytes. -/
def NoneApart (α : Type) [Encode (Option α)] : Prop :=
  ∃ bytes, Encode.encodeToVec (none : Option α) = .ok bytes ∧
    ∀ v : α, Encode.encodeToVec (some v) ≠ .ok bytes

theorem NoneApart.same_some {α : Type} [Encode (Option α)] (h : NoneApart α) (v : α) :
    same (none : Option α) (some v) = false := by
  obtain ⟨bytes, hnone, hsome⟩ := h
  rw [← Bool.not_eq_true, same_iff]
  intro hall
  exact hsome v ((hall bytes).mp hnone)

/-- A machine between two steps answers a controlled cycle with nothing, and the cycle itself
with something. -/
theorem controlled_answer {m : WatchdogMachine} (hm : m.ctx.emitted = [])
    {r : Recorded (Cycle Feed) (Option (Batch Alarm))} {events : List Feed}
    (hr : r.output = (replayStep watchdog m r.input).2)
    (hcontrol : Control (batchValues r.output) r.input.events events) :
    (replayStep watchdog m (r.withEvents events).input).2 = none ∧ ∃ v, r.output = some v := by
  have halarms : batchValues r.output = (watchdog.runStepAll m (.message r.input)).2 := by
    rw [hr, batchValues_replayStep]
  have hsilent : (watchdog.runStepAll m (.message (r.withEvents events).input)).2 = [] := by
    rw [halarms] at hcontrol
    cases hcontrol with
    | clear h => exact WatchdogMachine.step_cleared hm h rfl
    | add h hsub hmore =>
      exact WatchdogMachine.step_added hm h (List.ne_nil_of_length_pos (Nat.zero_lt_of_lt hmore))
  refine ⟨?_, ?_⟩
  · simp only [replayStep, hsilent, List.isEmpty_nil, if_true]
  · cases hout : r.output with
    | some v => exact ⟨v, rfl⟩
    | none =>
      rw [hout] at hcontrol
      cases hcontrol with
      | clear h => simp [batchValues] at h
      | add h _ _ => simp [batchValues] at h

section Runs

variable [Encode (Option (Batch Alarm))] [Debug (Cycle Feed)] [Debug (Option (Batch Alarm))]

/-- A recording of what a fresh watchdog answers fails the gate under any control, and the gate
names the controlled step. -/
theorem control_fails (hbincode : NoneApart (Batch Alarm)) {b : Build}
    {pre post : List (Recorded (Cycle Feed) (Option (Batch Alarm)))}
    {r : Recorded (Cycle Feed) (Option (Batch Alarm))} {events : List Feed}
    (hfits : b.Fits ((pre ++ r :: post).map Recorded.id))
    (hanswers : (pre ++ r :: post).map Recorded.output =
      Mealy.outputs (replayStep watchdog) watchdog.default
        ((pre ++ r :: post).map Recorded.input))
    (hcontrol : Control (batchValues r.output) r.input.events events) :
    ∃ report s', replayGate b (replayStep watchdog) watchdog.default
        (pre ++ r.withEvents events :: post) = some (report, s') ∧
      report.passed = false ∧ 1 ≤ report.divergent ∧
      ∃ text, report.firstDivergence = some ("copperlist " ++ toString r.id ++ ":" ++ text) := by
  -- Up to the controlled step the recording is as it was, and so is the machine.
  rw [List.map_append, List.map_append, Mealy.outputs_append] at hanswers
  obtain ⟨hpre, hrest⟩ := List.append_inj hanswers (by simp)
  have hr : r.output = (replayStep watchdog (Mealy.final (replayStep watchdog) watchdog.default
      (pre.map Recorded.input)) r.input).2 := (List.cons.inj hrest).1
  have hclean : (Mealy.final (replayStep watchdog) watchdog.default
      (pre.map Recorded.input)).ctx.emitted = [] := by
    rw [(replayStep_run watchdog _ _).1]
    exact (tracks_run _).emitted
  obtain ⟨hnone, v, hsome⟩ := controlled_answer hclean hr hcontrol
  have hsame : same (replayStep watchdog (Mealy.final (replayStep watchdog) watchdog.default
      (pre.map Recorded.input)) (r.withEvents events).input).2 (r.withEvents events).output =
        false := by
    rw [hnone, show (r.withEvents events).output = r.output from rfl, hsome]
    exact hbincode.same_some v
  have hfits' : b.Fits ((pre ++ r.withEvents events :: post).map Recorded.id) := by
    rw [List.map_append, List.map_cons] at hfits ⊢
    exact hfits
  obtain ⟨report, s', hgate, hpassed, hdivergent, hfirst⟩ :=
    names_first_difference hfits' hpre hsame
  exact ⟨report, s', hgate, hpassed, hdivergent, _, hfirst⟩

/-- **The replay gate is not vacuous.** After `n` iterations of any run of the watchdog, without a
wrapped id, take any step of the log. If its recorded output holds `Armed` or `Recovered` and its
events are cleared, or it holds `Tripped` and events are added to it, then the replay on a fresh
machine fails with a divergence, and names this step's copperlist as the first. -/
theorem control_detected (hbincode : NoneApart (Batch Alarm)) (task : CycleIngressTask)
    (pick : Nat → Nat) (ring : Nat → Slots (Cycle Feed) (Batch Alarm)) (id : UInt64)
    (capacity : Capacity) (clock : Nat) (sched : Schedule Feed Alarm) (b : Build) {n : Nat}
    (hwrap : id.toNat + n ≤ 2 ^ 64)
    (hstage : (timedRun task watchdog pick ring id capacity clock sched).stage = 3 * n) :
    let m := timedRun task watchdog pick ring id capacity clock sched
    ∀ pre r post, readRecorded m.mem.log = some (pre ++ r :: post) →
      ∀ events, Control (batchValues r.output) r.input.events events →
        ∃ report s', replayGate b (replayStep watchdog) watchdog.default
            (pre ++ r.withEvents events :: post) = some (report, s') ∧
          report.passed = false ∧ 1 ≤ report.divergent ∧
          ∃ text, report.firstDivergence =
            some ("copperlist " ++ toString r.id ++ ":" ++ text) := by
  intro m pre r post hread events hcontrol
  obtain ⟨recorded, hread', hids, hanswers, -⟩ :=
    timed_recording task watchdog pick ring id capacity clock sched hstage
  obtain rfl : recorded = pre ++ r :: post := Option.some.inj (hread'.symm.trans hread)
  have hfits : b.Fits ((pre ++ r :: post).map Recorded.id) := by
    intro pq hpq
    rw [hids] at hpq
    rw [adjacent_ids b hwrap pq hpq]
    exact Option.some_ne_none _
  exact control_fails hbincode hfits hanswers hcontrol

end Runs

/-! ## A controlled run -/

/-- Little-endian bytes. -/
def littleEndian : Nat → Nat → List UInt8
  | 0, _ => []
  | k + 1, n => .ofNat n :: littleEndian k (n / 256)

/-- bincode's variable-length integers. -/
def varint (n : Nat) : List UInt8 :=
  if n < 251 then [.ofNat n]
  else if n < 2 ^ 16 then 251 :: littleEndian 2 n
  else if n < 2 ^ 32 then 252 :: littleEndian 4 n
  else 253 :: littleEndian 8 n

instance : Encode (Option (Batch Alarm)) where
  encodeToVec
    | none => .ok [0]
    | some b => .ok (1 :: varint b.values.length ++ b.values.flatMap fun
      | .armed => varint 0
      | .tripped silentNs => varint 1 ++ varint silentNs
      | .recovered => varint 2)

instance : Debug (Cycle Feed) where
  fmt c := "Cycle \x7b now_ns: " ++ toString c.nowNs ++ ", events: [" ++
    ", ".intercalate (c.events.map fun e => "Feed(" ++ toString e.seq ++ ")") ++
    "], pending: " ++ toString c.pending ++ " \x7d"

instance : Debug (Option (Batch Alarm)) where
  fmt
    | none => "None"
    | some b => "Some(Batch([" ++ ", ".intercalate (b.values.map fun
      | .armed => "Armed"
      | .tripped silentNs => "Tripped \x7b silent_ns: " ++ toString silentNs ++ " \x7d"
      | .recovered => "Recovered") ++ "]))"

/-- One feed at time 0 and an iteration, and 60 ms later an iteration without feeds. -/
def trippedSchedule : Schedule Feed Alarm :=
  .env (.send ⟨1⟩) :: List.replicate 8 .move ++
    .env (.clock 60000000) :: List.replicate 8 .move

/-- What the first iteration records. -/
def armedStep : Recorded (Cycle Feed) (Option (Batch Alarm)) :=
  { id := 7
    input := { nowNs := 0, events := [⟨1⟩], pending := 0 }
    output := some { values := [.armed] } }

/-- What the second iteration records. -/
def trippedStep : Recorded (Cycle Feed) (Option (Batch Alarm)) :=
  { id := 8
    input := { nowNs := 60000000, events := [], pending := 0 }
    output := some { values := [.tripped 60000000] } }

/-- Without its feed the first step no longer arms, and with a feed the second no longer trips. -/
theorem control_detected_tripped :
    (∃ report s', replayGate .debug (replayStep watchdog) watchdog.default
        [armedStep.withEvents [], trippedStep] = some (report, s') ∧
      report.passed = false ∧ 1 ≤ report.divergent ∧
      ∃ text, report.firstDivergence =
        some ("copperlist " ++ toString (7 : UInt64) ++ ":" ++ text)) ∧
    ∃ report s', replayGate .debug (replayStep watchdog) watchdog.default
        [armedStep, trippedStep.withEvents [⟨2⟩]] = some (report, s') ∧
      report.passed = false ∧ 1 ≤ report.divergent ∧
      ∃ text, report.firstDivergence =
        some ("copperlist " ++ toString (8 : UInt64) ++ ":" ++ text) := by
  have hbincode : NoneApart (Batch Alarm) := by
    refine ⟨[0], rfl, ?_⟩
    intro v h
    cases (List.cons.inj (Except.ok.inj h)).1
  have hdetected := control_detected hbincode { maxBatch := 1, maxBatch_pos := by decide }
    (fun _ => 0) (fun _ => (.new none, .new none)) 7 none 0 trippedSchedule .debug (n := 2)
    (by decide) rfl
  have hread : readRecorded (timedRun { maxBatch := 1, maxBatch_pos := by decide } watchdog
      (fun _ => 0) (fun _ => (.new none, .new none)) 7 none 0 trippedSchedule).mem.log =
        some [armedStep, trippedStep] := rfl
  refine ⟨hdetected [] armedStep [trippedStep] hread [] (.clear (Or.inl ?_)),
    hdetected [armedStep] trippedStep [] hread [⟨2⟩] (.add (d := 60000000) ?_ ?_ ?_)⟩
  · exact List.mem_singleton.mpr rfl
  · exact List.mem_singleton.mpr rfl
  · exact List.nil_sublist _
  · exact Nat.one_pos

end Msrs
