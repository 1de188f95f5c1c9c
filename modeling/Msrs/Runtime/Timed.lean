import Msrs.Runtime.Pipeline
import Msrs.Core.Gate
import Mathlib.Data.List.Range

/-!
# The timed pipeline

`CycleIngressTask -> FsmBatchTask<M> -> BatchEgressTask`: every iteration hands the machine one
`Cycle`, with or without events.

* `timed_meets` — each of the three tasks does its part of `timedContract`.
* `timed_exactly_once` — at every moment of every run, nothing is lost, duplicated or reordered
  on the way to the machine or from it, and every iteration steps it once.
* `timed_replay_passes` — the log of every run passes the replay gate on a fresh machine.
-/

namespace Msrs

open Interleave Fifo

variable {T U σ : Type}

/-- The closure a service replays its cycles through: `run_step_all` on the machine, and no
batch for a step that emitted nothing. -/
def replayStep (M : FsmSpec σ (Cycle T) U) (machine : σ) (c : Cycle T) :
    σ × Option (Batch U) :=
  let (machine, out) := M.runStepAll machine (.message c)
  (machine, if out.isEmpty then none else some { values := out })

/-- The three tasks of the timed pipeline. -/
def timed (task : CycleIngressTask) (M : FsmSpec σ (Cycle T) U) :
    Pipeline T U (FsmBatchTask σ) (Cycle T) (Batch U) :=
  { source := task.process, transform := FsmBatchTask.process M, sink := BatchEgressTask.process }

/-- The slot `CycleIngressTask` leaves for a cycle. -/
def cycleSlot (c : Cycle T) : CuMsg (Cycle T) := { payload := some c, tov := .time c.nowNs }

/-- The values of an output payload. -/
def batchValues (b : Option (Batch U)) : List U := (b.map Batch.values).getD []

/-- What the timed pipeline is for: hand over the events in batches, step the machine with every
cycle, and send on what it emits. -/
def timedContract (task : CycleIngressTask) (M : FsmSpec σ (Cycle T) U) :
    Contract T U (FsmBatchTask σ) (Cycle T) (Batch U) where
  Filled a := ∃ c : Cycle T, c.events.length ≤ task.maxBatch ∧ a = cycleSlot c
  arrivals a := (a.payload.map Cycle.events).getD []
  step s a :=
    match a.payload with
    | some c => ({ machine := (replayStep M s.machine c).1 }, (replayStep M s.machine c).2)
    | none => (s, none)
  values := batchValues

variable {task : CycleIngressTask} {M : FsmSpec σ (Cycle T) U}

/-! ## The tasks -/

theorem FsmBatchTask.yields_cycle {s s' : FsmBatchTask σ} {c : Cycle T} {b b' : CuMsg (Batch U)}
    {r : CuResult} {cs : List (IoCall T U)}
    (h : (FsmBatchTask.process M s (cycleSlot c) b).Yields cs (s', b', r)) :
    s'.machine = (replayStep M s.machine c).1 ∧ b'.payload = (replayStep M s.machine c).2 := by
  obtain ⟨trigger, cs₁, cs₂, rfl, htrig, hs, -, hforw⟩ := yields_process h
  rw [triggerFor_some (show (cycleSlot c).payload = some c from rfl)] at htrig
  obtain ⟨rfl, rfl⟩ := (Prog.yields_ret _ _ _).mp htrig
  refine ⟨hs, ?_⟩
  simp only [replayStep]
  revert hforw
  generalize (M.runStepAll s.machine (.message c)).2 = outs
  intro hforw
  cases hforw with
  | nothing => rfl
  | batch _ hne t => simp [hne]

theorem timed_meets (task : CycleIngressTask) (M : FsmSpec σ (Cycle T) U) :
    (timed task M).Meets (timedContract task M) where
  source {a a' r cs} h := by
    have hsent := sent_eq_nil ((task.within_process a).follows h)
    obtain ⟨events, drain, pending, now, hd, rfl, -, rfl⟩ := CycleIngressTask.yields_process h
    refine ⟨⟨_, hd.length_le, rfl⟩, ?_, hsent⟩
    rw [received_append, hd.received]
    exact List.append_nil events
  source_running {a cs q} h := sent_eq_nil ((task.within_process a).follows h)
  transform {s s' a b b' r cs} hfilled h := by
    obtain ⟨hreceived, hsent⟩ := idle_of_clock (FsmBatchTask.within_process M s a b) h
    obtain ⟨c, -, rfl⟩ := hfilled
    obtain ⟨hs, hb⟩ := FsmBatchTask.yields_cycle h
    refine ⟨?_, hb, hreceived, hsent⟩
    · cases s'
      exact congrArg _ hs
  transform_running {s a b cs q} _ h := idle_of_clock (FsmBatchTask.within_process M s a b) h
  sink {b r cs} h := by
    refine ⟨received_of_sends (BatchEgressTask.within_process b) h, ?_⟩
    intro hall
    exact ((BatchEgressTask.yields_process h).complete hall).1
  sink_running {b cs q} h :=
    ⟨received_of_sends (BatchEgressTask.within_process b) h,
      Sends.of_running BatchEgressTask.yields_process h⟩

/-! ## The machine of the contract -/

section Machine

variable (task : CycleIngressTask) (M : FsmSpec σ (Cycle T) U) (s : FsmBatchTask σ)

/-- On cycles the contract's machine is the replay closure. -/
theorem timedContract_run (cycles : List (Cycle T)) :
    (Mealy.final (timedContract task M).step s (cycles.map cycleSlot)).machine =
        Mealy.final (replayStep M) s.machine cycles ∧
      Mealy.outputs (timedContract task M).step s (cycles.map cycleSlot) =
        Mealy.outputs (replayStep M) s.machine cycles := by
  induction cycles generalizing s with
  | nil => exact ⟨rfl, rfl⟩
  | cons c cycles ih =>
    obtain ⟨hfinal, houtputs⟩ := ih ((timedContract task M).step s (cycleSlot c)).1
    exact ⟨hfinal, congrArg _ houtputs⟩

theorem batchValues_replayStep (machine : σ) (c : Cycle T) :
    batchValues (replayStep M machine c).2 = (M.runStepAll machine (.message c)).2 := by
  simp only [replayStep]
  by_cases hempty : (M.runStepAll machine (.message c)).2.isEmpty = true
  · rw [if_pos hempty, List.isEmpty_iff.mp hempty]
    rfl
  · rw [if_neg hempty]
    rfl

/-- The replay closure steps the machine with every cycle and keeps every value. -/
theorem replayStep_run (machine : σ) (cycles : List (Cycle T)) :
    Mealy.final (replayStep M) machine cycles =
        Mealy.final M.runStepAll machine (cycles.map .message) ∧
      (Mealy.outputs (replayStep M) machine cycles).flatMap batchValues =
        (Mealy.outputs M.runStepAll machine (cycles.map .message)).flatten := by
  induction cycles generalizing machine with
  | nil => exact ⟨rfl, rfl⟩
  | cons c cycles ih =>
    obtain ⟨hfinal, houtputs⟩ := ih (replayStep M machine c).1
    refine ⟨hfinal, ?_⟩
    rw [Mealy.outputs_cons, List.flatMap_cons, batchValues_replayStep, houtputs]
    rfl

end Machine

/-! ## Exactly once, in order -/

/-- A run of the timed pipeline on channels nobody has used: unbounded on the way out, with any
capacity on the way in. -/
def timedRun (task : CycleIngressTask) (M : FsmSpec σ (Cycle T) U) (pick : Nat → Nat)
    (ring : Nat → Slots (Cycle T) (Batch U)) (id : UInt64) (capacity : Capacity) (clock : Nat)
    (sched : Schedule T U) : Moment T U (FsmBatchTask σ) (Slots (Cycle T) (Batch U)) :=
  (timed task M).dag.run pick (.start (FsmBatchTask.default M) ring id)
    (TransportDriver.spawnWith (Chan.fresh capacity) clock) sched

variable (task : CycleIngressTask) (M : FsmSpec σ (Cycle T) U) (pick : Nat → Nat)
  (ring : Nat → Slots (Cycle T) (Batch U)) (id : UInt64) (capacity : Capacity) (clock : Nat)
  (sched : Schedule T U)

theorem timed_refines : Pipeline.Refines (timedContract task M) (FsmBatchTask.default M)
    (timedRun task M pick ring id capacity clock sched) :=
  Pipeline.refines (timed_meets task M) pick _ ring id rfl sched

theorem exists_cycles {as : List (CuMsg (Cycle T))}
    (h : ∀ a ∈ as, (timedContract task M).Filled a) :
    ∃ cycles : List (Cycle T), as = cycles.map cycleSlot ∧
      ∀ c ∈ cycles, c.events.length ≤ task.maxBatch := by
  induction as with
  | nil => exact ⟨[], rfl, by simp⟩
  | cons a as ih =>
    obtain ⟨⟨c, hc, rfl⟩, hrest⟩ := List.forall_mem_cons.mp h
    obtain ⟨cycles, rfl, hcap⟩ := ih hrest
    exact ⟨c :: cycles, rfl, List.forall_mem_cons.mpr ⟨hc, hcap⟩⟩

/-- **Exactly once, in order.** At every moment of every run there is a list of cycles, one for
each iteration that is past its machine step, such that

* these cycles' events, then those the iteration under way has received, then the queue, are
  the messages the inbound channel accepted,
* no cycle exceeds the batch cap,
* the machine has been stepped with these cycles, in order and with nothing else,
* and, while the transport holds its receiver, what the machine emitted is what was delivered
  and then what the iteration under way still has to send. -/
theorem timed_exactly_once (task : CycleIngressTask) (M : FsmSpec σ (Cycle T) U)
    (pick : Nat → Nat) (ring : Nat → Slots (Cycle T) (Batch U)) (id : UInt64)
    (capacity : Capacity) (clock : Nat) (sched : Schedule T U) :
    let m := timedRun task M pick ring id capacity clock sched
    ∃ cycles : List (Cycle T),
      Pipeline.handed m.stage m.mem = cycles.map cycleSlot ∧
      cycles.length = (m.stage + 1) / 3 ∧
      accepted m.events = cycles.flatMap Cycle.events ++
        Pipeline.inflight (timedContract task M) m ++ m.world.inbound.queue ∧
      (∀ c ∈ cycles, c.events.length ≤ task.maxBatch) ∧
      m.mem.state.machine = Mealy.final M.runStepAll M.default (cycles.map .message) ∧
      (m.world.outbound.rx = true →
        (Mealy.outputs M.runStepAll M.default (cycles.map .message)).flatten =
          delivered m.calls ++ Pipeline.unsent (timedContract task M) m) := by
  intro m
  have href : Pipeline.Refines (timedContract task M) (FsmBatchTask.default M) m :=
    timed_refines task M pick ring id capacity clock sched
  have hall : m.world.outbound.rx = true → NoneRefused m.calls :=
    (timed task M).dag.noneRefused_run pick _ _ sched
  clear_value m
  obtain ⟨cycles, hcycles, hcap⟩ := exists_cycles task M href.filled
  have hrun := timedContract_run task M (FsmBatchTask.default M) cycles
  have hstep := replayStep_run M M.default cycles
  refine ⟨cycles, hcycles, ?_, ?_, hcap, ?_, ?_⟩
  · rw [← href.stepped, hcycles, List.length_map]
  · rw [href.accepted, hcycles, List.flatMap_map]
    rfl
  · rw [href.state, hcycles, hrun.1]
    exact hstep.1
  · intro hrx
    rw [← href.delivered (hall hrx), href.produced, hcycles, hrun.2]
    exact hstep.2.symm

/-! ## Replay -/

/-- The recorded steps of a log; `none` is the panic on a copperlist without a cycle. -/
def readRecorded (log : List (CopperList (Slots (Cycle T) (Batch U)))) :
    Option (List (Recorded (Cycle T) (Option (Batch U)))) :=
  log.mapM fun cl => do
    let input ← cl.msgs.1.payload
    return { id := cl.id, input, output := cl.msgs.2.payload }

theorem readRecorded_of_cycles {log : List (CopperList (Slots (Cycle T) (Batch U)))}
    {cycles : List (Cycle T)} (h : log.map (fun cl => cl.msgs.1) = cycles.map cycleSlot) :
    ∃ recorded, readRecorded log = some recorded ∧ recorded.map Recorded.input = cycles ∧
      recorded.map Recorded.id = log.map CopperList.id ∧
      recorded.map Recorded.output = log.map fun cl => cl.msgs.2.payload := by
  induction log generalizing cycles with
  | nil =>
    obtain rfl : cycles = [] := List.map_eq_nil_iff.mp h.symm
    exact ⟨[], rfl, rfl, rfl, rfl⟩
  | cons cl log ih =>
    obtain ⟨c, cycles, rfl⟩ := List.exists_cons_of_ne_nil (l := cycles) (by
      intro hnil
      simp [hnil] at h)
    obtain ⟨hc, hrest⟩ := List.cons.inj h
    obtain ⟨recorded, hread, hin, hid, hout⟩ := ih hrest
    have hpayload : cl.msgs.1.payload = some c := congrArg CuMsg.payload hc
    refine ⟨{ id := cl.id, input := c, output := cl.msgs.2.payload } :: recorded, ?_, ?_, ?_, ?_⟩
    · unfold readRecorded at hread ⊢
      rw [List.mapM_cons, hread, hpayload]
      rfl
    · rw [List.map_cons, hin]
    · rw [List.map_cons, List.map_cons, hid]
    · rw [List.map_cons, List.map_cons, hout]

/-- The ids of a run pass the gate's check as long as they do not wrap. -/
theorem adjacent_ids (b : Build) {id : UInt64} {n : Nat} (h : id.toNat + n ≤ 2 ^ 64) :
    ∀ pq ∈ adjacent (Dag.ids id n), b.add pq.1 1 = some pq.2 := by
  rw [forall_mem_adjacent (R := fun p q : UInt64 => b.add p 1 = some q), Dag.ids,
    List.isChain_map, List.isChain_range]
  intro i hi
  have hsucc : id + UInt64.ofNat i + 1 = id + UInt64.ofNat i.succ := by
    rw [Nat.succ_eq_add_one, UInt64.ofNat_add, UInt64.add_assoc]
    rfl
  rw [← hsucc]
  refine (b.add_eq _ 1).resolve_left fun hnone => ?_
  have hmod : (UInt64.ofNat i).toNat = i := by
    rw [UInt64.toNat_ofNat']
    exact Nat.mod_eq_of_lt (by omega)
  have hlast := ((b.add_one_eq_none _).mp hnone).2
  rw [UInt64.toNat_add, hmod, Nat.mod_eq_of_lt (by omega)] at hlast
  omega

/-- What the log of `n` iterations records: their ids, and for each cycle what the replay closure
answers. -/
theorem timed_recording {n : Nat}
    (hstage : (timedRun task M pick ring id capacity clock sched).stage = 3 * n) :
    let m := timedRun task M pick ring id capacity clock sched
    ∃ recorded, readRecorded m.mem.log = some recorded ∧
      recorded.map Recorded.id = Dag.ids id n ∧
      recorded.map Recorded.output =
        Mealy.outputs (replayStep M) M.default (recorded.map Recorded.input) ∧
      m.mem.state.machine =
        Mealy.final (replayStep M) M.default (recorded.map Recorded.input) ∧
      (NoneRefused m.calls →
        recorded.flatMap (fun r => batchValues r.output) = sent m.calls) := by
  intro m
  have hafter : Pipeline.After (timedContract task M) (FsmBatchTask.default M) id n m :=
    Pipeline.after_iterations (timed_meets task M) pick _ ring id rfl sched hstage
  clear_value m
  obtain ⟨cycles, hcycles, -⟩ := exists_cycles task M hafter.filled
  obtain ⟨recorded, hread, hin, hid, hout⟩ := readRecorded_of_cycles hcycles
  have hrun := timedContract_run task M (FsmBatchTask.default M) cycles
  refine ⟨recorded, hread, hid.trans hafter.ids, ?_, ?_, ?_⟩
  · rw [hout, hin, hafter.outputs, hcycles, hrun.2]
    rfl
  · rw [hafter.state, hcycles, hrun.1, hin]
    rfl
  · intro hall
    have hvalues := hafter.sent hall
    rwa [← hout, List.flatMap_map] at hvalues

/-- **Replay determinism.** After `n ≥ 1` iterations of any run, without a wrapped id, the log
reads back as a recording of `n` steps that passes the replay gate on a fresh machine, without
a divergence; the fresh machine ends in the state of the live one; and, if no send was refused,
the recorded batches are what the egress task sent. -/
theorem timed_replay_passes [Encode (Option (Batch U))] [Debug (Cycle T)]
    [Debug (Option (Batch U))] (b : Build) {n : Nat} (hpos : 0 < n) (hwrap : id.toNat + n ≤ 2 ^ 64)
    (hstage : (timedRun task M pick ring id capacity clock sched).stage = 3 * n) :
    let m := timedRun task M pick ring id capacity clock sched
    ∃ recorded, readRecorded m.mem.log = some recorded ∧ recorded.length = n ∧
      recorded.map Recorded.id = Dag.ids id n ∧
      (∃ report, replayGate b (replayStep M) M.default recorded =
          some (report, m.mem.state.machine) ∧ report.passed = true ∧ report.divergent = 0) ∧
      (NoneRefused m.calls →
        recorded.flatMap (fun r => batchValues r.output) = sent m.calls) := by
  intro m
  obtain ⟨recorded, hread, hids, hanswers, hstate, hsent⟩ :=
    timed_recording task M pick ring id capacity clock sched hstage
  have hlength : recorded.length = n := by
    rw [← List.length_map (f := Recorded.id), hids, Dag.ids, List.length_map, List.length_range]
  have hpass : Passes b (replayStep M) M.default recorded :=
    passes_of_outputs (List.ne_nil_of_length_pos (hlength ▸ hpos))
      (hids ▸ adjacent_ids b hwrap) hanswers
  refine ⟨recorded, hread, hlength, hids, ?_, hsent⟩
  obtain ⟨report, s', hgate, hpassed⟩ := hpass
  refine ⟨report, ?_, hpassed, GateReport.divergent_of_passed hpassed⟩
  have hend : s' = m.mem.state.machine := (replayGate_final hgate).trans hstate.symm
  rw [hgate, hend]

/-- A machine that emits the events of every cycle. -/
def forwarder : FsmSpec Unit (Cycle UInt8) UInt8 where
  default := ()
  step s trigger effects :=
    match trigger with
    | .message c => (s, c.events.foldl Effects.emit effects)
    | .tick _ => (s, effects)

/-- A cap of two. -/
def pairs : CycleIngressTask := { maxBatch := 2, maxBatch_pos := Nat.two_pos }

/-- A cap of one. -/
def singles : CycleIngressTask := { maxBatch := 1, maxBatch_pos := Nat.one_pos }

/-- A run of the forwarder. -/
def forwarderRun (task : CycleIngressTask) (sched : Schedule UInt8 UInt8) :
    Moment UInt8 UInt8 (FsmBatchTask Unit) (Slots (Cycle UInt8) (Batch UInt8)) :=
  timedRun task forwarder (fun _ => 0) (fun _ => (.new none, .new none)) 5 none 40 sched

/-- One iteration that receives, forwards and sends one message, and a receiver that is dropped
only then. -/
theorem timed_replay_passes_forwarder :
    let m := forwarderRun singles
      (.env (.send 7) :: List.replicate 8 .move ++ [.env .dropRx])
    m.world.outbound.rx = false ∧
      ∃ recorded, readRecorded m.mem.log = some recorded ∧ recorded.length = 1 ∧
        recorded.flatMap (fun r => batchValues r.output) = sent m.calls := by
  intro m
  let _ : Encode (Option (Batch UInt8)) := ⟨fun b => .ok (batchValues b)⟩
  let _ : Debug (Option (Batch UInt8)) := ⟨fun b => toString (batchValues b)⟩
  let _ : Debug (Cycle UInt8) := ⟨fun c => toString c.events⟩
  obtain ⟨recorded, hread, hlength, -, -, hsent⟩ := timed_replay_passes singles forwarder
    (fun _ => 0) (fun _ => (.new none, .new none)) 5 none 40
    (.env (.send 7) :: List.replicate 8 .move ++ [.env .dropRx])
    .debug (n := 1) (by decide) (by decide) rfl
  exact ⟨rfl, recorded, hread, hlength, hsent (noneRefused_iff.mpr rfl)⟩

/-- Without a receiver the egress task stops at the first value of the batch, and the log holds
both. -/
theorem recorded_beyond_sent :
    let m := forwarderRun pairs
      (.env (.send 7) :: .env (.send 8) :: .env .dropRx :: List.replicate 9 .move)
    m.stage = 3 ∧ ∃ recorded, readRecorded m.mem.log = some recorded ∧
      recorded.flatMap (fun r => batchValues r.output) = [7, 8] ∧ sent m.calls = [7] :=
  ⟨rfl, _, rfl, rfl, rfl⟩

end Msrs
