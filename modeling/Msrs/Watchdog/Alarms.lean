import Msrs.Watchdog.EndToEnd
import Mathlib.Data.Nat.Find

/-!
# What the alarms of a run are

* `inTurn_run` — over any triggers the first alarm is `Armed`, and from then on `Tripped` and
  `Recovered` take turns: the number of alarms decides their kinds.
* `no_missed_alarm` — a silence longer than the timeout is reported once, in the first iteration
  that finds it, and no later than one loop period after the timeout; the next feed ends it.
-/

namespace Msrs

open Interleave Fifo

/-- What `main` calls an alarm. -/
def Alarm.kind : Alarm → String
  | .armed => "armed"
  | .tripped _ => "tripped"
  | .recovered => "recovered"

/-- The kind of the `n`-th alarm, counted from 0. -/
def turnKind (n : Nat) : String :=
  if n = 0 then "armed" else if n % 2 = 1 then "tripped" else "recovered"

/-! ## Turns -/

/-- A machine's state against the alarms so far. -/
structure InTurn (state : WatchdogState) (alarms : List Alarm) : Prop where
  kinds : alarms.map Alarm.kind = (List.range alarms.length).map turnKind
  idle : state = .idle ↔ alarms.length = 0
  armed : state = .armed ↔ alarms.length % 2 = 1

/-- One alarm more, of the kind whose turn it is. -/
theorem InTurn.alarm {state state' : WatchdogState} {alarms : List Alarm} (h : InTurn state alarms)
    (a : Alarm) (hkind : a.kind = turnKind alarms.length) (hidle : state' ≠ .idle)
    (harmed : state' = .armed ↔ alarms.length % 2 = 0) : InTurn state' (alarms ++ [a]) := by
  refine ⟨?_, ?_, ?_⟩
  · rw [List.length_append, List.length_singleton, List.range_succ, List.map_append,
      List.map_append, h.kinds]
    exact congrArg (fun k => _ ++ [k]) hkind
  · simp [hidle]
  · rw [harmed, List.length_append, List.length_singleton]
    omega

theorem InTurn.tripped {alarms : List Alarm} (h : InTurn .tripped alarms) :
    alarms.length ≠ 0 ∧ alarms.length % 2 = 0 := by
  have hidle := mt h.idle.mpr (by simp)
  have harmed := mt h.armed.mpr (by simp)
  omega

theorem InTurn.step {m : WatchdogMachine} {alarms : List Alarm} (hm : m.ctx.emitted = [])
    (h : InTurn m.state alarms) (trigger : Trigger (Cycle Feed)) :
    InTurn (watchdog.runStepAll m trigger).1.state
      (alarms ++ (watchdog.runStepAll m trigger).2) := by
  cases trigger with
  | tick ns =>
    rw [WatchdogMachine.step_tick, List.append_nil]
    exact h
  | message c =>
    by_cases hc : c.events = []
    · rw [WatchdogMachine.step_silent hm hc]
      by_cases htrip : m.state = .armed ∧ m.ctx.store.expired c.nowNs = true
      · rw [if_pos htrip]
        have hodd := h.armed.mp htrip.1
        refine h.alarm _ ?_ (by simp) (by simp; omega)
        rw [turnKind, if_neg (by omega), if_pos hodd]
        rfl
      · rw [if_neg htrip, List.append_nil]
        exact h
    · rw [WatchdogMachine.step_fed hm hc]
      cases hstate : m.state with
      | idle =>
        rw [hstate] at h
        have hzero := h.idle.mp rfl
        refine h.alarm _ ?_ (by simp) (by simp; omega)
        rw [turnKind, if_pos hzero]
        rfl
      | armed =>
        rw [hstate] at h
        exact (List.append_nil alarms).symm ▸ h
      | tripped =>
        rw [hstate] at h
        obtain ⟨hne, heven⟩ := h.tripped
        refine h.alarm _ ?_ (by simp) (by simp; omega)
        rw [turnKind, if_neg hne, if_neg (by omega)]
        rfl

theorem inTurn_run (triggers : List (Trigger (Cycle Feed))) :
    InTurn (Mealy.final watchdog.runStepAll watchdog.default triggers).state
      (Mealy.outputs watchdog.runStepAll watchdog.default triggers).flatten := by
  induction triggers using List.reverseRecOn with
  | nil => exact ⟨rfl, by simp [watchdog, WatchdogMachine.default], by
      simp [watchdog, WatchdogMachine.default]⟩
  | append_singleton triggers trigger ih =>
    have hstep := ih.step (tracks_run triggers).emitted trigger
    simp only [Mealy.final_snoc, Mealy.outputs_snoc, List.flatten_append,
      List.flatten_singleton]
    exact hstep

/-! ## Silence -/

namespace WatchdogMachine

/-- After a feed at `t` the cycle is too late. -/
def Late (t : Nat) (c : Cycle Feed) : Prop := timeoutNs < c.nowNs - t

instance (t : Nat) : DecidablePred (Late t) := fun _ => inferInstanceAs (Decidable (_ < _))

/-- A machine that has just been fed at `t`. -/
structure FedAt (t : Nat) (m : WatchdogMachine) : Prop where
  emitted : m.ctx.emitted = []
  lastFeed : m.ctx.store.lastFeedNs = some t
  timeout : m.ctx.store.timeoutNs = timeoutNs

theorem FedAt.expired {t : Nat} {m : WatchdogMachine} (h : FedAt t m) (c : Cycle Feed) :
    m.ctx.store.expired c.nowNs = true ↔ Late t c := by
  simp [WatchdogStore.expired, WatchdogStore.silentNs, h.lastFeed, h.timeout, Late]

theorem FedAt.silentNs {t : Nat} {m : WatchdogMachine} (h : FedAt t m) (nowNs : Nat) :
    m.ctx.store.silentNs nowNs = nowNs - t := by
  simp [WatchdogStore.silentNs, h.lastFeed]

/-- A machine that was fed at `t`, armed, and then handed the silent cycles `cs`: it has tripped if
one of them was late. -/
structure AfterSilence (t : Nat) (cs : List (Cycle Feed)) (m : WatchdogMachine) : Prop
    extends FedAt t m where
  armed : (∀ c ∈ cs, ¬ Late t c) → m.state = .armed
  tripped : ∀ c ∈ cs, Late t c → m.state = .tripped

theorem AfterSilence.armed_iff {t : Nat} {cs : List (Cycle Feed)} {m : WatchdogMachine}
    (h : AfterSilence t cs m) : m.state = .armed ↔ ∀ c ∈ cs, ¬ Late t c := by
  refine ⟨fun harmed c hc hlate => ?_, h.armed⟩
  have htripped := h.tripped c hc hlate
  rw [harmed] at htripped
  cases htripped

theorem AfterSilence.step {t : Nat} {cs : List (Cycle Feed)} {m : WatchdogMachine}
    (h : AfterSilence t cs m) {c : Cycle Feed} (hc : c.events = []) :
    AfterSilence t (cs ++ [c]) (watchdog.runStepAll m (.message c)).1 := by
  rw [step_silent h.emitted hc]
  by_cases htrip : m.state = .armed ∧ m.ctx.store.expired c.nowNs = true
  · have hlate := (h.expired c).mp htrip.2
    rw [if_pos htrip]
    refine ⟨⟨h.emitted, h.lastFeed, h.timeout⟩, fun hall => ?_, fun _ _ _ => rfl⟩
    exact absurd hlate (hall c (by simp))
  · rw [if_neg htrip]
    refine ⟨⟨h.emitted, h.lastFeed, h.timeout⟩, fun hall => ?_, fun c' hc' hlate => ?_⟩
    · exact h.armed (List.forall_mem_append.mp hall).1
    · rcases List.mem_append.mp hc' with hmem | hmem
      · exact h.tripped c' hmem hlate
      -- A late cycle that does not trip the machine finds it tripped.
      · rw [List.mem_singleton.mp hmem] at hlate
        have hnot : ¬ ∀ c' ∈ cs, ¬ Late t c' := fun hall =>
          htrip ⟨h.armed hall, (h.expired c).mpr hlate⟩
        push Not at hnot
        obtain ⟨c', hmem', hlate'⟩ := hnot
        exact h.tripped c' hmem' hlate'

theorem afterSilence_run {t : Nat} {m : WatchdogMachine} (h : FedAt t m) (harmed : m.state = .armed)
    {cs : List (Cycle Feed)} (hsilent : ∀ c ∈ cs, c.events = []) :
    AfterSilence t cs (Mealy.final watchdog.runStepAll m (cs.map .message)) := by
  induction cs using List.reverseRecOn with
  | nil => exact ⟨h, fun _ => harmed, by simp⟩
  | append_singleton cs c ih =>
    obtain ⟨hcs, hc⟩ := List.forall_mem_append.mp hsilent
    rw [List.map_append, List.map_singleton, Mealy.final_snoc]
    exact (ih hcs).step (hc c (List.mem_singleton.mpr rfl))

theorem AfterSilence.answer {t : Nat} {cs : List (Cycle Feed)} {m : WatchdogMachine}
    (h : AfterSilence t cs m) {c : Cycle Feed} (hc : c.events = []) :
    (watchdog.runStepAll m (.message c)).2 =
      if (∀ c' ∈ cs, ¬ Late t c') ∧ Late t c then [.tripped (c.nowNs - t)] else [] := by
  rw [step_silent h.emitted hc, h.silentNs]
  by_cases htrip : (∀ c' ∈ cs, ¬ Late t c') ∧ Late t c
  · rw [if_pos htrip, if_pos ⟨h.armed htrip.1, (h.expired c).mpr htrip.2⟩]
  · rw [if_neg htrip, if_neg fun h' => htrip ⟨h.armed_iff.mp h'.1, (h.expired c).mp h'.2⟩]

theorem AfterSilence.recovers {t : Nat} {cs : List (Cycle Feed)} {m : WatchdogMachine}
    (h : AfterSilence t cs m) {late c : Cycle Feed} (hmem : late ∈ cs) (hlate : Late t late)
    (hc : c.events ≠ []) : (watchdog.runStepAll m (.message c)).2 = [.recovered] := by
  rw [step_fed h.emitted hc, h.tripped late hmem hlate]
  rfl

end WatchdogMachine

theorem fedAt_run (past : List (Cycle Feed)) {c : Cycle Feed} (hc : c.events ≠ []) :
    let m := Mealy.final watchdog.runStepAll .default ((past ++ [c]).map .message)
    WatchdogMachine.FedAt c.nowNs m ∧ m.state = .armed := by
  have htracks := tracks_run (past.map .message)
  simp only [List.map_append, List.map_cons, List.map_nil, Mealy.final_snoc]
  rw [WatchdogMachine.step_fed htracks.emitted hc]
  exact ⟨⟨rfl, rfl, htracks.timeout⟩, rfl⟩

theorem mem_between {cycles : List (Cycle Feed)} {i j : Nat} {c : Cycle Feed} :
    c ∈ (cycles.take i).drop (j + 1) ↔ ∃ l, j < l ∧ l < i ∧ cycles[l]? = some c := by
  rw [List.mem_iff_getElem?]
  refine ⟨fun h => ?_, fun h => ?_⟩
  · obtain ⟨n, hn⟩ := h
    rw [List.getElem?_drop] at hn
    have hlt : j + 1 + n < i := by
      by_contra hge
      rw [List.getElem?_take_eq_none (by omega)] at hn
      cases hn
    exact ⟨j + 1 + n, by omega, hlt, by rwa [List.getElem?_take_of_lt hlt] at hn⟩
  · obtain ⟨l, hjl, hli, hl⟩ := h
    obtain ⟨n, rfl⟩ := Nat.exists_eq_add_of_le (Nat.succ_le_of_lt hjl)
    refine ⟨n, ?_⟩
    rw [List.getElem?_drop, List.getElem?_take_of_lt hli]
    exact hl

section Cycles

variable {cycles : List (Cycle Feed)} {i j : Nat} {ci cj : Cycle Feed}

theorem answer_at (hi : cycles[i]? = some ci) :
    (Mealy.outputs watchdog.runStepAll watchdog.default (cycles.map .message))[i]? =
      some (watchdog.runStepAll (Mealy.final watchdog.runStepAll .default
        ((cycles.map .message).take i)) (.message ci)).2 := by
  rw [Mealy.getElem?_outputs, List.getElem?_map, hi]
  rfl

/-- The machine before cycle `i`, if `j` was the latest cycle with events. -/
theorem afterSilence_at (hji : j < i) (hj : cycles[j]? = some cj) (hfed : cj.events ≠ [])
    (hsilent : ∀ l c, j < l → l < i → cycles[l]? = some c → c.events = []) :
    WatchdogMachine.AfterSilence cj.nowNs ((cycles.take i).drop (j + 1))
      (Mealy.final watchdog.runStepAll .default ((cycles.map .message).take i)) := by
  have hsplit : cycles.take i = cycles.take j ++ [cj] ++ (cycles.take i).drop (j + 1) := by
    have hpre : cycles.take j ++ [cj] = (cycles.take i).take (j + 1) := by
      rw [List.take_take, Nat.min_eq_left hji, List.take_add_one, hj]
      rfl
    rw [hpre, List.take_append_drop]
  obtain ⟨hat, harmed⟩ := fedAt_run (cycles.take j) hfed
  have hafter := @WatchdogMachine.afterSilence_run _ _ hat harmed ((cycles.take i).drop (j + 1)) ?_
  · rwa [← Mealy.final_append, ← List.map_append, ← hsplit, List.map_take] at hafter
  · intro c hc
    obtain ⟨l, hjl, hli, hl⟩ := mem_between.mp hc
    exact hsilent l c hjl hli hl

/-- The answer to a silent cycle `i` after the latest cycle `j` with events. -/
theorem answer_after_feed (hji : j < i) (hj : cycles[j]? = some cj) (hi : cycles[i]? = some ci)
    (hfed : cj.events ≠ [])
    (hsilent : ∀ l c, j < l → l ≤ i → cycles[l]? = some c → c.events = []) :
    let answer := (Mealy.outputs watchdog.runStepAll watchdog.default (cycles.map .message))[i]?
    let first := (∀ l c, j < l → l < i → cycles[l]? = some c →
      ¬ WatchdogMachine.Late cj.nowNs c) ∧ WatchdogMachine.Late cj.nowNs ci
    (first → answer = some [.tripped (ci.nowNs - cj.nowNs)]) ∧ (¬ first → answer = some []) := by
  intro answer first
  have hafter := afterSilence_at hji hj hfed fun l c hjl hli => hsilent l c hjl (Nat.le_of_lt hli)
  have heq := answer_at hi
  rw [hafter.answer (hsilent i ci hji (Nat.le_refl i) hi)] at heq
  have hbetween : (∀ c ∈ (cycles.take i).drop (j + 1), ¬ WatchdogMachine.Late cj.nowNs c) ↔
      ∀ l c, j < l → l < i → cycles[l]? = some c → ¬ WatchdogMachine.Late cj.nowNs c := by
    refine ⟨fun h l c hjl hli hl => ?_, fun h c hc => ?_⟩
    · exact h c (mem_between.mpr ⟨l, hjl, hli, hl⟩)
    · obtain ⟨l, hjl, hli, hl⟩ := mem_between.mp hc
      exact h l c hjl hli hl
  refine ⟨fun h => ?_, fun h => ?_⟩
  · exact heq.trans (congrArg some (if_pos ⟨hbetween.mpr h.1, h.2⟩))
  · exact heq.trans (congrArg some (if_neg fun h' => h ⟨hbetween.mp h'.1, h'.2⟩))

/-- The first cycle after `j` that is too late. -/
theorem exists_first_late {k : Nat} {ck : Cycle Feed} (hjk : j < k) (hk : cycles[k]? = some ck)
    (hlate : WatchdogMachine.Late cj.nowNs ck) :
    ∃ i ci, j < i ∧ i ≤ k ∧ cycles[i]? = some ci ∧ WatchdogMachine.Late cj.nowNs ci ∧
      ∀ l c, j < l → l < i → cycles[l]? = some c → ¬ WatchdogMachine.Late cj.nowNs c := by
  classical
  have hex : ∃ i, j < i ∧ ∃ c, cycles[i]? = some c ∧ WatchdogMachine.Late cj.nowNs c :=
    ⟨k, hjk, ck, hk, hlate⟩
  obtain ⟨hji, ci, hi, hilate⟩ := Nat.find_spec hex
  refine ⟨Nat.find hex, ci, hji, Nat.find_min' hex ⟨hjk, ck, hk, hlate⟩, hi, hilate, ?_⟩
  intro l c hjl hl hc hlate'
  exact Nat.find_min hex hl ⟨hjl, c, hc, hlate'⟩

/-- It is too late by one period at most. -/
theorem first_late_le (hji : j < i) (hj : cycles[j]? = some cj) (hi : cycles[i]? = some ci)
    (hfirst : ∀ l c, j < l → l < i → cycles[l]? = some c → ¬ WatchdogMachine.Late cj.nowNs c)
    {period : Nat} (hperiod : ∀ l c c', cycles[l]? = some c → cycles[l + 1]? = some c' →
      c'.nowNs ≤ c.nowNs + period) :
    ci.nowNs - cj.nowNs ≤ timeoutNs + period := by
  obtain ⟨l, rfl⟩ : ∃ l, i = l + 1 := ⟨i - 1, by omega⟩
  obtain ⟨c, hc⟩ : ∃ c, cycles[l]? = some c := by
    have hlt := (List.getElem?_eq_some_iff.mp hi).1
    exact ⟨_, List.getElem?_eq_getElem (by omega)⟩
  have hstep := hperiod l c ci hc hi
  have hbefore : c.nowNs - cj.nowNs ≤ timeoutNs := by
    by_cases hjl : j = l
    · rw [hjl, hc] at hj
      rw [Option.some.inj hj, Nat.sub_self]
      exact Nat.zero_le _
    · exact Nat.le_of_not_lt (hfirst l c (by omega) (Nat.lt_succ_self l) hc)
  omega

/-- The answer to the first cycle `i` with events after a late one. -/
theorem recovers_after_late {l : Nat} {cl : Cycle Feed} (hjl : j < l) (hli : l < i)
    (hj : cycles[j]? = some cj) (hl : cycles[l]? = some cl) (hi : cycles[i]? = some ci)
    (hfed : cj.events ≠ []) (hlate : WatchdogMachine.Late cj.nowNs cl)
    (hsilent : ∀ l c, j < l → l < i → cycles[l]? = some c → c.events = []) (hc : ci.events ≠ []) :
    (Mealy.outputs watchdog.runStepAll watchdog.default (cycles.map .message))[i]? =
      some [.recovered] := by
  have hafter := afterSilence_at (Nat.lt_trans hjl hli) hj hfed hsilent
  rw [answer_at hi, hafter.recovers (mem_between.mpr ⟨l, hjl, hli, hl⟩) hlate hc]

end Cycles

/-! ## Runs -/

section Runs

variable (task : CycleIngressTask) (pick : Nat → Nat)
  (ring : Nat → Slots (Cycle Feed) (Batch Alarm)) (id : UInt64) (capacity : Capacity)
  (clock : Nat) (sched : Schedule Feed Alarm)

theorem values_produced :
    let m := timedRun task watchdog pick ring id capacity clock sched
    ∃ cycles : List (Cycle Feed), Pipeline.handed m.stage m.mem = cycles.map cycleSlot ∧
      (Pipeline.produced m.stage m.mem).map batchValues =
        Mealy.outputs watchdog.runStepAll watchdog.default (cycles.map .message) := by
  intro m
  have href : Pipeline.Refines (timedContract task watchdog) (FsmBatchTask.default watchdog) m :=
    timed_refines task watchdog pick ring id capacity clock sched
  obtain ⟨cycles, hcycles, -⟩ := exists_cycles task watchdog href.filled
  refine ⟨cycles, hcycles, ?_⟩
  rw [href.produced, hcycles, (timedContract_run task watchdog _ cycles).2]
  show (Mealy.outputs (replayStep watchdog) watchdog.default cycles).map batchValues = _
  generalize watchdog.default = s
  clear hcycles
  induction cycles generalizing s with
  | nil => rfl
  | cons c cycles ih =>
    rw [Mealy.outputs_cons, List.map_cons, batchValues_replayStep, ih]
    rfl

/-- **No missed alarm.** In any run let iteration `j` have had events, and the iterations after it
up to `k` none, and let `k` be longer after `j` than the timeout. Then exactly one of these
iterations has emitted anything, and this is one `Tripped`: the first that is later than the
timeout, with the time since `j`. If successive iterations are at most `period` apart, that time is
at most the timeout and one period. And the first iteration with events after `k` emits
`Recovered`. -/
theorem no_missed_alarm {j k : Nat} {cj ck : Cycle Feed} :
    let m := timedRun task watchdog pick ring id capacity clock sched
    let cycle := fun i => (Pipeline.handed m.stage m.mem)[i]?
    let emitted := fun i => (Pipeline.produced m.stage m.mem)[i]?.map batchValues
    j < k → cycle j = some (cycleSlot cj) → cycle k = some (cycleSlot ck) → cj.events ≠ [] →
      (∀ i c, j < i → i ≤ k → cycle i = some (cycleSlot c) → c.events = []) →
      timeoutNs < ck.nowNs - cj.nowNs →
      ∃ i ci, j < i ∧ i ≤ k ∧ cycle i = some (cycleSlot ci) ∧
        timeoutNs < ci.nowNs - cj.nowNs ∧
        emitted i = some [.tripped (ci.nowNs - cj.nowNs)] ∧
        (∀ i', j < i' → i' ≤ k → i' ≠ i → emitted i' = some []) ∧
        (∀ period, (∀ i c c', cycle i = some (cycleSlot c) → cycle (i + 1) = some (cycleSlot c') →
          c'.nowNs ≤ c.nowNs + period) → ci.nowNs - cj.nowNs ≤ timeoutNs + period) ∧
        ∀ l cl, k < l → cycle l = some (cycleSlot cl) → cl.events ≠ [] →
          (∀ i c, k < i → i < l → cycle i = some (cycleSlot c) → c.events = []) →
          emitted l = some [.recovered] := by
  intro m cycle emitted hjk hj hk hfed hsilent hlate
  obtain ⟨cycles, hcycles, hvalues⟩ : ∃ cycles : List (Cycle Feed),
      Pipeline.handed m.stage m.mem = cycles.map cycleSlot ∧
      (Pipeline.produced m.stage m.mem).map batchValues =
        Mealy.outputs watchdog.runStepAll watchdog.default (cycles.map .message) :=
    values_produced task pick ring id capacity clock sched
  have hcycle (i : Nat) (c : Cycle Feed) : cycle i = some (cycleSlot c) ↔ cycles[i]? = some c := by
    simp only [cycle, hcycles, List.getElem?_map, Option.map_eq_some_iff]
    refine ⟨fun h => ?_, fun h => ⟨c, h, rfl⟩⟩
    obtain ⟨c', hc', heq⟩ := h
    rwa [Option.some.inj (congrArg CuMsg.payload heq)] at hc'
  have hemitted (i : Nat) : emitted i =
      (Mealy.outputs watchdog.runStepAll watchdog.default (cycles.map .message))[i]? := by
    rw [← hvalues, List.getElem?_map]
  clear_value m
  simp only [hcycle, hemitted] at *
  obtain ⟨i, ci, hji, hik, hi, hilate, hfirst⟩ := exists_first_late hjk hk hlate
  refine ⟨i, ci, hji, hik, hi, hilate, ?_, ?_, ?_, ?_⟩
  · refine (answer_after_feed hji hj hi hfed fun l c hjl hl hc => ?_).1 ⟨hfirst, hilate⟩
    exact hsilent l c hjl (Nat.le_trans hl hik) hc
  · intro i' hji' hik' hne
    obtain ⟨c', hc'⟩ : ∃ c', cycles[i']? = some c' := by
      have hlt := (List.getElem?_eq_some_iff.mp hk).1
      exact ⟨_, List.getElem?_eq_getElem (by omega)⟩
    refine (answer_after_feed hji' hj hc' hfed fun l c hjl hl hc =>
      hsilent l c hjl (Nat.le_trans hl hik') hc).2 ?_
    intro h
    rcases Nat.lt_or_gt_of_ne hne with hlt | hgt
    · exact hfirst i' c' hji' hlt hc' h.2
    · exact h.1 i ci hji hgt hi hilate
  · intro period hperiod
    exact first_late_le hji hj hi hfirst hperiod
  · intro l cl hkl hl hclfed hbetween
    refine recovers_after_late hjk hkl hj hk hl hfed hlate (fun i c hji hil hc => ?_) hclfed
    rcases Nat.lt_or_ge k i with hki | hik
    · exact hbetween i c hki hil hc
    · exact hsilent i c hji hik hc

end Runs

/-- A feed at time 0, silence for 60 ms, and a feed after it. -/
def feedAfterSilence : Schedule Feed Alarm :=
  silentSchedule ++ List.replicate 2 .move ++ .env (.send ⟨2⟩) :: List.replicate 6 .move

def silentRun : Moment Feed Alarm (FsmBatchTask WatchdogMachine)
    (Slots (Cycle Feed) (Batch Alarm)) :=
  timedRun { maxBatch := 1, maxBatch_pos := Nat.one_pos } watchdog (fun _ => 0)
    (fun _ => (.new none, .new none)) 0 none 0 feedAfterSilence

/-- The iteration after the silence reports it, once, and the next one its end. -/
theorem no_missed_alarm_silence : ∃ i, 0 < i ∧ i ≤ 1 ∧
    (Pipeline.produced silentRun.stage silentRun.mem)[i]?.map batchValues =
      some [.tripped 60000000] ∧
    (Pipeline.produced silentRun.stage silentRun.mem)[2]?.map batchValues = some [.recovered] := by
  have hzero : (Pipeline.handed silentRun.stage silentRun.mem)[0]? =
      some (cycleSlot { nowNs := 0, events := [⟨1⟩], pending := 0 }) := rfl
  have hone : (Pipeline.handed silentRun.stage silentRun.mem)[1]? =
      some (cycleSlot { nowNs := 60000000, events := [], pending := 0 }) := rfl
  have htwo : (Pipeline.handed silentRun.stage silentRun.mem)[2]? =
      some (cycleSlot { nowNs := 60000000, events := [⟨2⟩], pending := 0 }) := rfl
  obtain ⟨i, ci, hji, hik, hci, -, hemitted, -, -, hrecovers⟩ := no_missed_alarm
    { maxBatch := 1, maxBatch_pos := by decide } (fun _ => 0) (fun _ => (.new none, .new none)) 0
    none 0 feedAfterSilence (j := 0) (k := 1) (by decide) hzero hone (List.cons_ne_nil _ _)
    (fun i c hji hik hc => by
      obtain rfl : i = 1 := by omega
      have heq := Option.some.inj (hone.symm.trans hc)
      rw [← Option.some.inj (congrArg CuMsg.payload heq)]) (by decide)
  obtain rfl : i = 1 := by omega
  have heq := Option.some.inj (hone.symm.trans hci)
  obtain rfl := Option.some.inj (congrArg CuMsg.payload heq)
  refine ⟨1, hji, hik, hemitted, ?_⟩
  exact hrecovers 2 _ (by decide) htwo (List.cons_ne_nil _ _) fun i c hlo hhi => by omega

end Msrs
