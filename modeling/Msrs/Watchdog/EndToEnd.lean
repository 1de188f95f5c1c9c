import Msrs.Watchdog.Spec
import Msrs.Runtime.Drains

/-!
# The watchdog behind its transport

The watchdog in the timed pipeline, fed by any transport. A trip goes back to a silence of the
feeder itself: no feed is left behind by a drain or counted for the wrong cycle
(`no_false_alarm`).
-/

namespace Msrs

open Interleave Fifo

theorem exists_lastFed {cycles : List (Cycle Feed)} {t : Nat}
    (h : (fed (cycles.map .message)).getLast? = some t) :
    ∃ before c after, cycles = before ++ c :: after ∧ c.events ≠ [] ∧ c.nowNs = t ∧
      ∀ c' ∈ after, c'.events = [] := by
  rw [fed, List.filterMap_map, List.getLast?_filterMap, List.findSome?_eq_some_iff] at h
  obtain ⟨after, c, before, hrev, hc, hafter⟩ := h
  have hcycles : cycles = before.reverse ++ c :: after.reverse := by
    rw [← List.reverse_reverse cycles, hrev]
    simp
  have hfed : ¬ c.events = [] ∧ c.nowNs = t := by
    simpa [fedAt, Trigger.message?] using hc
  refine ⟨before.reverse, c, after.reverse, hcycles, hfed.1, hfed.2, ?_⟩
  intro c' hc'
  simpa [fedAt, Trigger.message?] using hafter c' (List.mem_reverse.mp hc')

/-- What a trip means to the machine: the cycle is empty, the latest cycle with events was
longer ago than the timeout, and the cycles since were empty. -/
theorem tripped_of_silence {cycles : List (Cycle Feed)} {c : Cycle Feed} {d : Nat}
    (h : .tripped d ∈ (watchdog.runStepAll
      (Mealy.final watchdog.runStepAll .default (cycles.map .message)) (.message c)).2) :
    ∃ before c₀ after, cycles = before ++ c₀ :: after ∧ c₀.events ≠ [] ∧
      (∀ c' ∈ after ++ [c], c'.events = []) ∧ c₀.nowNs + d = c.nowNs ∧ timeoutNs < d := by
  rw [(tracks_step _ _ _ (.message c) (tracks_run (cycles.map .message))).1] at h
  obtain ⟨hempty, t, hlast, hlate, rfl⟩ := silence_of_tripped h
  obtain ⟨before, c₀, after, hcycles, hfed, rfl, hafter⟩ := exists_lastFed hlast
  refine ⟨before, c₀, after, hcycles, hfed, ?_, by omega, hlate⟩
  exact List.forall_mem_append.mpr ⟨hafter, by simpa using hempty⟩

section Runs

variable (task : CycleIngressTask) (pick : Nat → Nat)
  (ring : Nat → Slots (Cycle Feed) (Batch Alarm)) (id : UInt64) (capacity : Capacity)
  (clock : Nat) (sched : Schedule Feed Alarm)

/-- The payload of iteration `k` is what the machine emits there, after the cycles before. -/
theorem produced_watchdog {k : Nat} {b : Option (Batch Alarm)} :
    let m := timedRun task watchdog pick ring id capacity clock sched
    (Pipeline.produced m.stage m.mem)[k]? = some b →
      ∃ (past rest : List (Cycle Feed)) (c : Cycle Feed), past.length = k ∧
        Pipeline.handed m.stage m.mem = (past ++ c :: rest).map cycleSlot ∧
        batchValues b = (watchdog.runStepAll
          (Mealy.final watchdog.runStepAll .default (past.map .message)) (.message c)).2 := by
  intro m hb
  have href : Pipeline.Refines (timedContract task watchdog) (FsmBatchTask.default watchdog) m :=
    timed_refines task watchdog pick ring id capacity clock sched
  clear_value m
  obtain ⟨cycles, hcycles, -⟩ := exists_cycles task watchdog href.filled
  rw [href.produced, hcycles, (timedContract_run task watchdog _ cycles).2,
    Mealy.getElem?_outputs] at hb
  obtain ⟨c, hc, rfl⟩ := Option.map_eq_some_iff.mp hb
  obtain ⟨hk, rfl⟩ := List.getElem?_eq_some_iff.mp hc
  refine ⟨cycles.take k, cycles.drop (k + 1), cycles[k], List.length_take_of_le (by omega), ?_, ?_⟩
  · rw [List.getElem_cons_drop, List.take_append_drop]
    exact hcycles
  · rw [batchValues_replayStep, (replayStep_run watchdog _ _).1]
    rfl

/-- **No false alarm.** If iteration `k` of any run emits `Tripped` with `d`, then an earlier
iteration `j` handed over events, `d` is the time between the two cycles and longer than the
timeout; iteration `j` left the inbound queue empty; and from its last receive to the first
receive of iteration `k`, which found nothing, the channel accepted no feed. -/
theorem no_false_alarm {k d : Nat} {b : Option (Batch Alarm)} :
    let m := timedRun task watchdog pick ring id capacity clock sched
    (Pipeline.produced m.stage m.mem)[k]? = some b → .tripped d ∈ batchValues b →
      ∃ j cj ck, j < k ∧
        (Pipeline.handed m.stage m.mem)[j]? = some (cycleSlot cj) ∧
        (Pipeline.handed m.stage m.mem)[k]? = some (cycleSlot ck) ∧
        cj.events ≠ [] ∧ cj.nowNs + d = ck.nowNs ∧ timeoutNs < d ∧
        ∃ pre last mid e post, Between m.hist j k pre last mid (.error e) post ∧
          accepted (mid.map Prod.snd) = [] ∧
          ∃ n, (timedRun task watchdog pick ring id capacity clock (sched.take n)).hist =
              pre ++ [(3 * j, .attempt last)] ∧
            (timedRun task watchdog pick ring id capacity clock
              (sched.take n)).world.inbound.queue = [] := by
  intro m hb hd
  obtain ⟨past, rest, ck, rfl, hhanded, hvalues⟩ :=
    produced_watchdog task pick ring id capacity clock sched hb
  rw [hvalues] at hd
  obtain ⟨before, cj, after, rfl, hfed, hafter, hsilent, hlate⟩ := tripped_of_silence hd
  have hk : (before ++ cj :: after).length = before.length + 1 + after.length := by
    simp only [List.length_append, List.length_cons]
    omega
  have hcj : (Pipeline.handed m.stage m.mem)[before.length]? = some (cycleSlot cj) := by
    rw [hhanded]
    simp
  have hck : (Pipeline.handed m.stage m.mem)[(before ++ cj :: after).length]? =
      some (cycleSlot ck) := by
    rw [hhanded, List.getElem?_map, List.getElem?_append_right (Nat.le_refl _), Nat.sub_self]
    rfl
  have hjk : before.length < (before ++ cj :: after).length := by omega
  refine ⟨before.length, cj, ck, hjk, hcj, hck, hfed, hsilent, hlate, ?_⟩
  refine nothing_between task watchdog pick ring id capacity clock sched hjk hcj
    (List.getElem?_eq_some_iff.mp hck).1 fun i c hlo hhi hc => hafter c ?_
  -- The cycles after `cj` up to `ck` are those of `after` and `ck` itself.
  rw [show timedRun task watchdog pick ring id capacity clock sched = m from rfl, hhanded,
    List.getElem?_map] at hc
  obtain ⟨c', hc', hslot⟩ := Option.map_eq_some_iff.mp hc
  obtain rfl : c' = c := Option.some.inj (congrArg CuMsg.payload hslot)
  obtain ⟨n, rfl⟩ : ∃ n, i = before.length + (n + 1) := ⟨i - before.length - 1, by omega⟩
  rw [List.append_assoc, List.getElem?_append_right (Nat.le_add_right _ _),
    Nat.add_sub_cancel_left, List.cons_append, List.getElem?_cons_succ,
    List.append_cons, List.getElem?_append_left (by simp; omega)] at hc'
  exact List.mem_of_getElem? hc'

end Runs

/-- One feed at time 0, an iteration, and 60 ms later the ingress task and the machine again. -/
def silentSchedule : Schedule Feed Alarm :=
  .env (.send ⟨1⟩) :: List.replicate 8 .move ++ .env (.clock 60000000) :: List.replicate 6 .move

theorem no_false_alarm_silence :
    let m := timedRun { maxBatch := 1, maxBatch_pos := by decide } watchdog (fun _ => 0)
      (fun _ => (.new none, .new none)) 0 none 0 silentSchedule
    ∃ j cj ck, j < 1 ∧
      (Pipeline.handed m.stage m.mem)[j]? = some (cycleSlot cj) ∧
      (Pipeline.handed m.stage m.mem)[1]? = some (cycleSlot ck) ∧
      cj.events ≠ [] ∧ cj.nowNs + 60000000 = ck.nowNs ∧
      ∃ pre last mid e post, Between m.hist j 1 pre last mid (.error e) post ∧
        accepted (mid.map Prod.snd) = [] := by
  intro m
  obtain ⟨j, cj, ck, hjk, hj, hk, hfed, hsilent, -, pre, last, mid, e, post, hbetween, hacc, -⟩ :=
    no_false_alarm { maxBatch := 1, maxBatch_pos := by decide } (fun _ => 0)
      (fun _ => (.new none, .new none)) 0 none 0 silentSchedule (k := 1) (d := 60000000)
      (b := some ⟨[.tripped 60000000]⟩) rfl (List.mem_singleton.mpr rfl)
  exact ⟨j, cj, ck, hjk, hj, hk, hfed, hsilent, pre, last, mid, e, post, hbetween, hacc⟩

end Msrs
