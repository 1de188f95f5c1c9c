import Msrs.Runtime.Timed
import Msrs.Runtime.Messages

/-!
# Services

Any of the ingress tasks, any machine in either of its adapters, and any egress task that takes
what the adapter leaves. `messages` and `timed` are two of them.

`service_meets` — whatever the choice, the three tasks do their part of the one contract that is
put together from theirs.
-/

namespace Msrs

open Interleave Fifo

variable {T U S A B In : Type}

/-! ## The parts -/

/-- The adapters of machines on `In`, by what they keep and their output payload. -/
inductive Adapter (In : Type) : Type → Type → Type 1 where
  | fsmTask {σ Out : Type} (M : FsmSpec σ In Out) : Adapter In (FsmTask σ) Out
  | fsmBatchTask {σ Out : Type} (M : FsmSpec σ In Out) : Adapter In (FsmBatchTask σ) (Batch Out)

namespace Adapter

protected def default : {S B : Type} → Adapter In S B → S
  | _, _, .fsmTask M => FsmTask.default M
  | _, _, .fsmBatchTask M => FsmBatchTask.default M

/-- One iteration of an adapter. -/
def process : {S B : Type} → Adapter In S B → S → CuMsg In → CuMsg B →
    Io T U (S × CuMsg B × CuResult)
  | _, _, .fsmTask M => FsmTask.process M
  | _, _, .fsmBatchTask M => FsmBatchTask.process M

/-- What an adapter makes of a trigger: its next state and its output payload. -/
def step : {S B : Type} → Adapter In S B → S → Trigger In → S × Option B
  | _, _, .fsmTask M, s, trigger =>
    ({ machine := (M.runStepAll s.machine trigger).1 }, single (M.runStepAll s.machine trigger).2)
  | _, _, .fsmBatchTask M, s, trigger =>
    ({ machine := (M.runStepAll s.machine trigger).1 },
      if (M.runStepAll s.machine trigger).2.isEmpty then none
      else some { values := (M.runStepAll s.machine trigger).2 })

theorem yields_process {adapter : Adapter In S B} {s s' : S} {input : CuMsg In}
    {output output' : CuMsg B} {r : CuResult} {cs : List (IoCall T U)}
    (h : (adapter.process s input output : Io T U _).Yields cs (s', output', r)) :
    ∃ trigger cs₁ cs₂, cs = cs₁ ++ cs₂ ∧
      (triggerFor input : Io T U (Trigger In)).Yields cs₁ trigger ∧
      s' = (adapter.step s trigger).1 ∧ output'.payload = (adapter.step s trigger).2 := by
  cases adapter with
  | fsmTask M =>
    obtain ⟨trigger, cs₁, cs₂, rfl, htrig, hs, hforw⟩ := FsmTask.yields_process h
    refine ⟨trigger, cs₁, cs₂, rfl, htrig, ?_, hforw.payload⟩
    cases s'
    exact congrArg _ hs
  | fsmBatchTask M =>
    obtain ⟨trigger, cs₁, cs₂, rfl, htrig, hs, -, hforw⟩ := FsmBatchTask.yields_process h
    refine ⟨trigger, cs₁, cs₂, rfl, htrig, ?_, ?_⟩
    · cases s'
      exact congrArg _ hs
    · simp only [step]
      revert hforw
      generalize (M.runStepAll s.machine trigger).2 = outs
      intro hforw
      cases hforw with
      | nothing => rfl
      | batch _ hne t => simp [hne]

theorem within_process (adapter : Adapter In S B) (s : S) (input : CuMsg In) (output : CuMsg B) :
    (adapter.process s input output : Io T U _).Within (· = .now) := by
  cases adapter with
  | fsmTask M => exact FsmTask.within_process M s input output
  | fsmBatchTask M => exact FsmBatchTask.within_process M s input output

end Adapter

namespace Ingress

/-- What an ingress task makes sure of in the slot it leaves. -/
def Filled : {A : Type} → Ingress T A → CuMsg A → Prop
  | _, .ingressTask, a => ∃ t, a.tov = .time t
  | _, .cycleIngressTask task, a =>
    ∃ c : Cycle T, c.events.length ≤ task.maxBatch ∧ a = cycleSlot c

/-- The messages in an ingress slot. -/
def arrivals : {A : Type} → Ingress T A → CuMsg A → List T
  | _, .ingressTask, a => a.payload.toList
  | _, .cycleIngressTask _, a => (a.payload.map Cycle.events).getD []

/-- An ingress slot stands for a trigger without the clock. -/
theorem exists_trigger {ingress : Ingress T A} {a : CuMsg A} (h : ingress.Filled a) :
    ∃ trigger, a.trigger? = some trigger := by
  cases ingress with
  | ingressTask =>
    obtain ⟨t, ht⟩ := h
    cases hp : a.payload with
    | some m => exact ⟨.message m, by simp [CuMsg.trigger?, hp]⟩
    | none => exact ⟨.tick t, by simp [CuMsg.trigger?, hp, ht]⟩
  | cycleIngressTask task =>
    obtain ⟨c, -, rfl⟩ := h
    exact ⟨.message c, rfl⟩

theorem filled_of_process {ingress : Ingress T A} {msg msg' : CuMsg A} {r : CuResult}
    {cs : List (IoCall T U)} (h : (ingress.process msg : Io T U _).Yields cs (msg', r)) :
    ingress.Filled msg' ∧ received cs = ingress.arrivals msg' := by
  cases ingress with
  | ingressTask =>
    obtain ⟨res, now, rfl, -, rfl⟩ := IngressTask.yields_process h
    refine ⟨⟨now, rfl⟩, ?_⟩
    cases res with
    | ok v => rfl
    | error e => rfl
  | cycleIngressTask task =>
    obtain ⟨events, drain, pending, now, hd, rfl, -, rfl⟩ := CycleIngressTask.yields_process h
    refine ⟨⟨_, hd.length_le, rfl⟩, ?_⟩
    rw [received_append, hd.received]
    exact List.append_nil events

theorem within_process (ingress : Ingress T A) (msg : CuMsg A) :
    (ingress.process msg : Io T U _).Within (fun o => ¬ o.IsSend) := by
  cases ingress with
  | ingressTask => exact IngressTask.within_process msg
  | cycleIngressTask task => exact task.within_process msg

theorem attempt_of_process {ingress : Ingress T A} {msg msg' : CuMsg A} {r : CuResult}
    {cs : List (IoCall T U)} (h : (ingress.process msg : Io T U _).Yields cs (msg', r)) :
    ∃ (res : Except TryRecvError T) (rest : List (IoCall T U)), cs = ⟨.tryRecv, res⟩ :: rest := by
  cases ingress with
  | ingressTask =>
    obtain ⟨res, now, rfl, -, -⟩ := IngressTask.yields_process h
    exact ⟨res, [⟨.now, now⟩], rfl⟩
  | cycleIngressTask task =>
    obtain ⟨events, drain, pending, now, hd, rfl, -, -⟩ := CycleIngressTask.yields_process h
    have hpos := task.maxBatch_pos
    revert hd
    generalize task.maxBatch = cap at hpos
    intro hd
    cases hd with
    | cap => exact absurd hpos (Nat.lt_irrefl 0)
    | stop n e => exact ⟨.error e, _, rfl⟩
    | recv v _ => exact ⟨.ok v, _, rfl⟩

end Ingress

/-! ## The service -/

/-- The three tasks of a service. -/
def service (ingress : Ingress T A) (adapter : Adapter A S B) (egress : Egress U B) :
    Pipeline T U S A B :=
  { source := ingress.process, transform := adapter.process, sink := egress.process }

/-- What a service is for: hand over the messages, step the machine with every slot, and send on
what it emits. -/
def serviceContract (ingress : Ingress T A) (adapter : Adapter A S B) (egress : Egress U B) :
    Contract T U S A B where
  Filled := ingress.Filled
  arrivals := ingress.arrivals
  step s a :=
    match a.trigger? with
    | some trigger => adapter.step s trigger
    | none => (s, none)
  values := egress.values

theorem messages_eq {σ : Type} (M : FsmSpec σ T U) :
    messages M = service .ingressTask (.fsmTask M) .egressTask := rfl

theorem timed_eq {σ : Type} (task : CycleIngressTask) (M : FsmSpec σ (Cycle T) U) :
    timed task M = service (.cycleIngressTask task) (.fsmBatchTask M) .batchEgressTask := rfl

variable (ingress : Ingress T A) (adapter : Adapter A S B) (egress : Egress U B)

/-- **Every service meets its contract.** -/
theorem service_meets :
    (service ingress adapter egress).Meets (serviceContract ingress adapter egress) where
  source {a a' r cs} h := by
    have hsent := sent_eq_nil ((ingress.within_process a).follows h)
    obtain ⟨hfilled, hreceived⟩ := Ingress.filled_of_process h
    exact ⟨hfilled, hreceived, hsent⟩
  source_running {a cs q} h := sent_eq_nil ((ingress.within_process a).follows h)
  transform {s s' a b b' r cs} hfilled h := by
    obtain ⟨hreceived, hsent⟩ := idle_of_clock (adapter.within_process s a b) h
    obtain ⟨trigger, htrigger⟩ := Ingress.exists_trigger hfilled
    obtain ⟨trigger', cs₁, cs₂, rfl, hyields, hs, hb⟩ := Adapter.yields_process h
    rw [triggerFor_of_trigger? htrigger] at hyields
    obtain ⟨rfl, rfl⟩ := (Prog.yields_ret _ _ _).mp hyields
    simp only [serviceContract, htrigger]
    exact ⟨hs, hb, hreceived, hsent⟩
  transform_running {s a b cs q} _ h := idle_of_clock (adapter.within_process s a b) h
  sink {b r cs} h := by
    refine ⟨received_of_sends (egress.within_process b) h, ?_⟩
    intro hall
    exact ((Egress.yields_process h).complete hall).1
  sink_running {b cs q} h :=
    ⟨received_of_sends (egress.within_process b) h, Sends.of_running Egress.yields_process h⟩

/-- A run of a service on the bridge `w`. -/
def serviceRun (pick : Nat → Nat) (ring : Nat → Slots A B) (id : UInt64) (w : Bridge T U)
    (sched : Schedule T U) : Moment T U S (Slots A B) :=
  (service ingress adapter egress).dag.run pick (.start adapter.default ring id) w sched

variable (pick : Nat → Nat) (ring : Nat → Slots A B) (id : UInt64) {w : Bridge T U}
  (sched : Schedule T U)

theorem service_refines (hw : w.inbound.queue = []) :
    Pipeline.Refines (serviceContract ingress adapter egress) adapter.default
      (serviceRun ingress adapter egress pick ring id w sched) :=
  Pipeline.refines (service_meets ingress adapter egress) pick _ ring id hw sched

variable (w : Bridge T U)

theorem legal_serviceRun :
    (bridge T U).Legal w (serviceRun ingress adapter egress pick ring id w sched).events
      (serviceRun ingress adapter egress pick ring id w sched).world :=
  Dag.legal_run _ pick _ w sched

theorem logged_serviceRun : Dag.Logged (service (T := T) ingress adapter egress).dag id
    (serviceRun ingress adapter egress pick ring id w sched).stage
    (serviceRun ingress adapter egress pick ring id w sched).mem :=
  Dag.logged_run _ pick adapter.default ring id w sched

theorem serviceRun_append (later : Schedule T U) :
    serviceRun ingress adapter egress pick ring id w (sched ++ later) =
      (bridge T U).run ((service ingress adapter egress).dag.stage pick)
        (serviceRun ingress adapter egress pick ring id w sched) later :=
  Dag.run_append _ pick _ w sched later

theorem serviceRun_begin :
    let m := serviceRun ingress adapter egress pick ring id w sched
    calls (m.ofStage m.stage) = [] →
      m.cur = (service ingress adapter egress).dag.stage pick m.stage m.mem :=
  Shared.cur_of_no_calls (bridge T U) _ _ w sched

/-- A run of a service that takes batches of two and sends on what it receives. -/
def pairsRun (sched : Schedule UInt8 UInt8) : Moment UInt8 UInt8 (FsmBatchTask Unit)
    (Slots (Cycle UInt8) (Batch UInt8)) :=
  serviceRun (.cycleIngressTask { maxBatch := 2, maxBatch_pos := Nat.two_pos })
    (.fsmBatchTask forwarder) .batchEgressTask (fun _ => 0) (fun _ => (.new none, .new none)) 5
    (TransportDriver.spawn 40) sched

end Msrs
