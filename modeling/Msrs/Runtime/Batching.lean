import Msrs.Runtime.Timed
import Mathlib.Data.List.Infix

/-!
# Batching does not matter

The timed pipeline with a machine that takes the events of a cycle one by one, whatever the
cycle's time and backlog. Where its machine ends and, if no send is refused, what it sends is
decided by the messages it has taken from the transport, not by how these were cut into cycles
(`batching_invariant`).
-/

namespace Msrs

open Interleave Fifo

variable {T U σ C : Type}

/-! ## The last moment with a receiver -/

/-- A transport that holds its receiver at the start held it at a moment after which nothing was
delivered. -/
theorem exists_open (D : Dag T U σ C) (pick : Nat → Nat) (rt : Runtime σ C) {w : Bridge T U}
    (hw : w.outbound.rx = true) (sched : Schedule T U) :
    ∃ n, n ≤ sched.length ∧ (D.run pick rt w (sched.take n)).world.outbound.rx = true ∧
      delivered (D.run pick rt w (sched.take n)).calls =
        delivered (D.run pick rt w sched).calls := by
  induction sched using List.reverseRecOn with
  | nil => exact ⟨0, Nat.le_refl 0, hw, rfl⟩
  | append_singleton sched x ih =>
    by_cases hrx : (D.run pick rt w (sched ++ [x])).world.outbound.rx = true
    · exact ⟨_, Nat.le_refl _, by rwa [List.take_length], by rw [List.take_length]⟩
    · obtain ⟨n, hle, hopen, hsame⟩ := ih
      refine ⟨n, ?_, ?_, ?_⟩
      · rw [List.length_append]
        exact Nat.le_add_right_of_le hle
      · rwa [List.take_append_of_le_length hle]
      -- The last step delivers nothing: an action of the transport never does, and a move of the
      -- loop leaves the receiver alone, so it was gone before.
      · rw [List.take_append_of_le_length hle, hsame]
        have hsnoc : D.run pick rt w (sched ++ [x]) =
            (bridge T U).next (D.stage pick) (D.run pick rt w sched) x :=
          Shared.run_snoc _ sched x
        rw [hsnoc] at hrx ⊢
        generalize D.run pick rt w sched = c at hrx
        unfold Shared.Config.calls
        cases x with
        | env e => simp [Shared.next]
        | move =>
          cases hcur : c.cur with
          | ret s => simp [Shared.next, hcur]
          | call o k =>
            simp only [Shared.next, hcur] at hrx ⊢
            have hgone : c.world.outbound.rx = false := by
              rw [← Bool.not_eq_true, ← (c.world.ends_handle o).2]
              exact hrx
            have hlegal : (bridge T U).Legal c.world
                [.call ⟨o, ((bridge T U).handle c.world o).1⟩]
                ((bridge T U).handle c.world o).2 := ⟨rfl, rfl⟩
            have hnone := (rx_law hlegal hgone).2
            rw [List.map_append, calls_append, delivered_append, List.map_singleton, hnone,
              List.append_nil]

/-! ## Machines that take events one by one -/

/-- A step on a cycle is the fold of a handler over the cycle's events. -/
def FsmSpec.FoldsEvents (M : FsmSpec σ (Cycle T) U) (handler : σ → T → σ × List U) : Prop :=
  ∀ s c, M.runStepAll s (.message c) =
    (Mealy.final handler s c.events, (Mealy.outputs handler s c.events).flatten)

/-- What the machine emits for some events. -/
def emissions (M : FsmSpec σ (Cycle T) U) (handler : σ → T → σ × List U) (events : List T) :
    List U :=
  (Mealy.outputs handler M.default events).flatten

/-- The run has finished its iterations and not begun the next one. -/
structure AtRest (m : Moment T U σ C) : Prop where
  boundary : m.stage % 3 = 0
  begins : calls (m.ofStage m.stage) = []

variable {M : FsmSpec σ (Cycle T) U} {handler : σ → T → σ × List U}

/-- **One run.** Of the messages taken from the transport some first ones have been stepped; they
alone decide where the machine is and what it has emitted. -/
theorem timed_events (hM : M.FoldsEvents handler) (task : CycleIngressTask) (pick : Nat → Nat)
    (ring : Nat → Slots (Cycle T) (Batch U)) (id : UInt64) (capacity : Capacity) (clock : Nat)
    (sched : Schedule T U) :
    let m := timedRun task M pick ring id capacity clock sched
    let events := (Pipeline.handed m.stage m.mem).flatMap (timedContract task M).arrivals
    received m.calls = events ++ Pipeline.inflight (timedContract task M) m ∧
      m.mem.state.machine = Mealy.final handler M.default events ∧
      (Pipeline.produced m.stage m.mem).flatMap batchValues = emissions M handler events := by
  intro m
  have href : Pipeline.Refines (timedContract task M) (FsmBatchTask.default M) m :=
    timed_refines task M pick ring id capacity clock sched
  have hqueue : accepted m.events = received m.calls ++ m.world.inbound.queue :=
    Dag.accepted_run (timed task M).dag pick _ rfl sched
  clear_value m
  obtain ⟨cycles, hcycles, -⟩ := exists_cycles task M href.filled
  have hevents : (Pipeline.handed m.stage m.mem).flatMap (timedContract task M).arrivals =
      cycles.flatMap Cycle.events := by
    rw [hcycles, List.flatMap_map]
    rfl
  obtain ⟨hfinal, houtputs⟩ := timedContract_run task M (FsmBatchTask.default M) cycles
  obtain ⟨hstate, hvalues⟩ := replayStep_run M M.default cycles
  obtain ⟨hfold, hemitted⟩ := Mealy.run_batched hM M.default cycles
  refine ⟨?_, ?_, ?_⟩
  · rw [href.accepted] at hqueue
    exact (List.append_cancel_right hqueue).symm
  · rw [hevents, href.state, hcycles, hfinal, ← hfold]
    exact hstate
  · rw [hevents, href.produced, hcycles, houtputs, emissions, ← hemitted]
    exact hvalues

/-- At rest everything taken from the transport has been stepped, and everything emitted has
been delivered if no send was refused. -/
theorem timed_atRest (hM : M.FoldsEvents handler) (task : CycleIngressTask) (pick : Nat → Nat)
    (ring : Nat → Slots (Cycle T) (Batch U)) (id : UInt64) (capacity : Capacity) (clock : Nat)
    (sched : Schedule T U) :
    let m := timedRun task M pick ring id capacity clock sched
    AtRest m → m.mem.state.machine = Mealy.final handler M.default (received m.calls) ∧
      (NoneRefused m.calls → delivered m.calls = emissions M handler (received m.calls)) := by
  intro m hrest
  obtain ⟨hreceived, hmachine, hemitted⟩ := timed_events hM task pick ring id capacity clock sched
  have href := timed_refines task M pick ring id capacity clock sched
  have hinflight : Pipeline.inflight (timedContract task M) m = [] := by
    rw [Pipeline.inflight, if_pos hrest.boundary, hrest.begins]
    rfl
  have hunsent : Pipeline.unsent (timedContract task M) m = [] :=
    if_neg (by rw [hrest.boundary]; decide)
  change received m.calls = _ ++ Pipeline.inflight (timedContract task M) m at hreceived
  rw [hinflight, List.append_nil] at hreceived
  rw [hreceived]
  refine ⟨hmachine, fun hall => ?_⟩
  have hdelivered : _ = delivered m.calls ++ Pipeline.unsent (timedContract task M) m :=
    href.delivered hall
  rw [hunsent, List.append_nil] at hdelivered
  rw [← hemitted]
  exact hdelivered.symm

/-- What has been delivered are first emissions for the messages taken from the transport. -/
theorem delivered_emissions (hM : M.FoldsEvents handler) (task : CycleIngressTask)
    (pick : Nat → Nat) (ring : Nat → Slots (Cycle T) (Batch U)) (id : UInt64)
    (capacity : Capacity) (clock : Nat) (sched : Schedule T U) :
    let m := timedRun task M pick ring id capacity clock sched
    delivered m.calls <+: emissions M handler (received m.calls) := by
  intro m
  obtain ⟨n, hle, hopen, hsame⟩ := exists_open (timed task M).dag pick
    (.start (FsmBatchTask.default M) ring id)
    (w := TransportDriver.spawnWith (Chan.fresh capacity) clock) rfl sched
  change (timedRun task M pick ring id capacity clock (sched.take n)).world.outbound.rx = true
    at hopen
  change delivered (timedRun task M pick ring id capacity clock (sched.take n)).calls =
    delivered m.calls at hsame
  obtain ⟨hreceived, -, hemitted⟩ :=
    timed_events hM task pick ring id capacity clock (sched.take n)
  have hdel := (timed_refines task M pick ring id capacity clock (sched.take n)).delivered
    ((timed task M).dag.noneRefused_run pick _ _ (sched.take n) hopen)
  have hgrow : received (timedRun task M pick ring id capacity clock (sched.take n)).calls <+:
      received m.calls := by
    obtain ⟨ls, hevents, -⟩ := Dag.events_append (timed task M).dag pick
      (.start (FsmBatchTask.default M) ring id)
      (TransportDriver.spawnWith (Chan.fresh capacity) clock) (sched.take n) (sched.drop n)
    rw [List.take_append_drop] at hevents
    change m.events = (timedRun task M pick ring id capacity clock (sched.take n)).events ++ ls
      at hevents
    change _ <+: received (calls m.events)
    rw [hevents, calls_append, received_append]
    exact List.prefix_append _ _
  rw [hreceived] at hgrow
  rw [← hsame]
  refine List.IsPrefix.trans ?_ (Mealy.outputs_mono handler M.default
    ((List.prefix_append _ _).trans hgrow)).flatten
  change _ = delivered _ ++ _ at hdel
  rw [← emissions, ← hemitted]
  exact ⟨_, hdel.symm⟩

/-- **Batching does not matter.** Two runs of a machine that takes the events of a cycle one by
one, with any batch caps, interleavings and clocks.

* If the transports have sent the same, and both runs are at rest with nothing queued, their
  machines are in the same state; and if no send was refused, the same was delivered.
* If one run has so far taken only a first part of what the other has taken, and the other is at
  rest and no send of it was refused, what was delivered in the one is the first part of what was
  delivered in the other. -/
theorem batching_invariant (hM : M.FoldsEvents handler) (task task' : CycleIngressTask)
    (pick pick' : Nat → Nat) (ring ring' : Nat → Slots (Cycle T) (Batch U)) (id id' : UInt64)
    (capacity capacity' : Capacity) (clock clock' : Nat) (sched sched' : Schedule T U) :
    let m := timedRun task M pick ring id capacity clock sched
    let m' := timedRun task' M pick' ring' id' capacity' clock' sched'
    (accepted m.events = accepted m'.events →
      AtRest m → m.world.inbound.queue = [] → AtRest m' → m'.world.inbound.queue = [] →
        m.mem.state.machine = m'.mem.state.machine ∧
          (NoneRefused m.calls → NoneRefused m'.calls →
            delivered m.calls = delivered m'.calls)) ∧
    (received m.calls <+: received m'.calls → AtRest m' → NoneRefused m'.calls →
      delivered m.calls <+: delivered m'.calls) := by
  intro m m'
  refine ⟨?_, ?_⟩
  · intro hsame hrest hempty hrest' hempty'
    have hqueue : accepted m.events = received m.calls ++ m.world.inbound.queue :=
      Dag.accepted_run (timed task M).dag pick _ rfl sched
    have hqueue' : accepted m'.events = received m'.calls ++ m'.world.inbound.queue :=
      Dag.accepted_run (timed task' M).dag pick' _ rfl sched'
    rw [hempty, List.append_nil] at hqueue
    rw [hempty', List.append_nil] at hqueue'
    have hreceived : received m.calls = received m'.calls :=
      hqueue.symm.trans (hsame.trans hqueue')
    obtain ⟨hmachine, hdel⟩ := timed_atRest hM task pick ring id capacity clock sched hrest
    obtain ⟨hmachine', hdel'⟩ :=
      timed_atRest hM task' pick' ring' id' capacity' clock' sched' hrest'
    refine ⟨?_, fun hall hall' => ?_⟩
    · exact hmachine.trans ((congrArg _ hreceived).trans hmachine'.symm)
    · exact (hdel hall).trans ((congrArg _ hreceived).trans (hdel' hall').symm)
  · intro hfirst hrest' hall'
    have hdel := delivered_emissions hM task pick ring id capacity clock sched
    have hdel' := (timed_atRest hM task' pick' ring' id' capacity' clock' sched' hrest').2 hall'
    change delivered m'.calls = _ at hdel'
    rw [hdel']
    exact hdel.trans (Mealy.outputs_mono handler M.default hfirst).flatten

theorem forwarder_foldsEvents : forwarder.FoldsEvents fun s v => (s, [v]) := by
  have hemit (vs : List UInt8) (effects : Effects UInt8) :
      (vs.foldl Effects.emit effects).outbox = effects.outbox ++ vs := by
    induction vs generalizing effects with
    | nil => simp
    | cons v vs ih => simp [ih]
  have hall (vs : List UInt8) :
      (Mealy.outputs (fun (s : Unit) v => (s, [v])) () vs).flatten = vs := by
    induction vs with
    | nil => rfl
    | cons v vs ih => simp [ih]
  intro s c
  have hout : (forwarder.runStepAll s (.message c)).2 = c.events := hemit c.events .default
  exact Prod.ext rfl (hout.trans (hall c.events).symm)

/-- Two messages in one batch of two, and in two batches of one, of which the first is sent
before the second is drained. -/
theorem batching_invariant_pair :
    let both := .env (.send 7) :: .env (.send 8) :: List.replicate 10 .move
    let first := .env (.send 7) :: List.replicate 8 .move
    let second := .env (.send 8) :: List.replicate 8 .move
    delivered (forwarderRun pairs both).calls =
        delivered (forwarderRun singles (first ++ second)).calls ∧
      delivered (forwarderRun singles first).calls <+:
        delivered (forwarderRun pairs both).calls := by
  intro both first second
  have hrest : AtRest (forwarderRun pairs both) := ⟨by decide, rfl⟩
  have hrest' : AtRest (forwarderRun singles (first ++ second)) := ⟨by decide, rfl⟩
  have hall : NoneRefused (forwarderRun pairs both).calls := noneRefused_iff.mpr rfl
  refine ⟨?_, ?_⟩
  · exact ((batching_invariant forwarder_foldsEvents pairs singles _ _ _ _ _ _ _ _ _ _ _ _).1
      (by decide) hrest rfl hrest' rfl).2 hall (noneRefused_iff.mpr rfl)
  · exact (batching_invariant forwarder_foldsEvents singles pairs _ _ _ _ _ _ _ _ _ _ _ _).2
      (by decide) hrest hall

/-- One accepted message, drained in both runs: what arrives depends on whether the transport
still holds its receiver. -/
theorem delivery_differs :
    let held := forwarderRun singles (.env (.send 7) :: List.replicate 8 .move)
    let dropped := forwarderRun singles
      (.env (.send 7) :: .env .dropRx :: List.replicate 8 .move)
    accepted held.events = accepted dropped.events ∧
      AtRest held ∧ held.world.inbound.queue = [] ∧
      AtRest dropped ∧ dropped.world.inbound.queue = [] ∧
      delivered held.calls = [7] ∧ delivered dropped.calls = [] :=
  ⟨by decide, ⟨by decide, rfl⟩, rfl, ⟨by decide, rfl⟩, rfl, rfl, rfl⟩

end Msrs
