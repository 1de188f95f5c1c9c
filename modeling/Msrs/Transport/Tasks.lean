import Msrs.Core.FsmTask
import Msrs.Transport.Driver

/-!
# Ingress and egress tasks

`tasks.rs`: source tasks that drain the inbound channel into a copperlist slot and sink tasks
that forward a slot to the outbound channel. The channel ends are in the bridge, so a task keeps
only its configuration.
-/

namespace Msrs

open Interleave Fifo

variable {T U : Type}

/-! ## Step helpers -/

/-- Drain at most one inbound message. -/
def ingressStep : Io T U (Option T) := do
  let r ← Io.tryRecv
  return r.toOption

/-- The text of a send on a channel whose receiver is gone. -/
def sendErrorText : String := "sending on a disconnected channel"

/-- Forward a payload, if present, to the outbound channel. -/
def egressStep (payload : Option U) : Io T U (Except String Unit) :=
  match payload with
  | some v => do
    match ← Io.send v with
    | .ok () => return .ok ()
    | .error _ => return .error sendErrorText
  | none => return .ok ()

/-- One ingress cycle: the messages drained this iteration and the cycle time. -/
structure Cycle (α : Type) where
  /-- Clock time, sampled after the drain. -/
  nowNs : Nat
  /-- Messages drained this cycle, in arrival order. -/
  events : List α
  /-- Messages still queued after the drain. -/
  pending : Nat
  deriving DecidableEq

/-- `rx.try_iter().take(n).collect()`: receive until `n` messages or the first failure. -/
def tryIterTake : Nat → Io T U (List T)
  | 0 => return []
  | n + 1 => do
    match ← Io.tryRecv with
    | .ok v => do
      let rest ← tryIterTake n
      return v :: rest
    | .error _ => return []

/-- Drain up to `maxBatch` inbound messages and stamp the batch with `nowNs`. -/
def cycleStep (maxBatch nowNs : Nat) : Io T U (Cycle T) := do
  let events ← tryIterTake maxBatch
  let pending ← Io.len
  return { nowNs, events, pending }

/-! ## Source tasks -/

/-- One iteration of `IngressTask`: at most one message, and the cycle time. -/
def IngressTask.process (newMsg : CuMsg T) : Io T U (CuMsg T × CuResult) := do
  let newMsg ← match ← ingressStep with
    | some v => pure (newMsg.setPayload v)
    | none => pure newMsg.clearPayload
  let now ← Io.now
  return ({ newMsg with tov := .time now }, .ok ())

/-- The configuration `CycleIngressTask::new` accepts: it rejects a batch cap of zero. -/
structure CycleIngressTask where
  maxBatch : Nat
  maxBatch_pos : 0 < maxBatch

/-- One iteration of `CycleIngressTask`: a `Cycle`, with or without events. -/
def CycleIngressTask.process (self : CycleIngressTask) (newMsg : CuMsg (Cycle T)) :
    Io T U (CuMsg (Cycle T) × CuResult) := do
  let cycle ← cycleStep self.maxBatch 0
  let now ← Io.now
  let cycle := { cycle with nowNs := now }
  let newMsg := newMsg.setPayload cycle
  return ({ newMsg with tov := .time now }, .ok ())

/-- The ingress tasks of messages of `T`, by their output payload. -/
inductive Ingress (T : Type) : Type → Type 1 where
  | ingressTask : Ingress T T
  | cycleIngressTask (task : CycleIngressTask) : Ingress T (Cycle T)

/-- One iteration of an ingress task. -/
def Ingress.process : {A : Type} → Ingress T A → CuMsg A → Io T U (CuMsg A × CuResult)
  | _, .ingressTask => IngressTask.process
  | _, .cycleIngressTask task => task.process

/-! ## Sink tasks -/

/-- `map_err(CuError::from)` -/
def toCuResult : Except String Unit → CuResult
  | .ok () => .ok ()
  | .error e => .error { msg := e }

/-- One iteration of `EgressTask`. -/
def EgressTask.process (input : CuMsg U) : Io T U CuResult := do
  let r ← egressStep input.payload
  return toCuResult r

/-- The loop of `BatchEgressTask`: forward in order, and stop at the first failure. -/
def BatchEgressTask.forward : List U → Io T U CuResult
  | [] => return .ok ()
  | v :: vs => do
    match toCuResult (← egressStep (some v)) with
    | .ok () => forward vs
    | .error e => return .error e

/-- One iteration of `BatchEgressTask`. -/
def BatchEgressTask.process (input : CuMsg (Batch U)) : Io T U CuResult :=
  match input.payload with
  | some batch => forward batch.values
  | none => return .ok ()

/-- The egress tasks of values of `U`, by their input payload. -/
inductive Egress (U : Type) : Type → Type 1 where
  | egressTask : Egress U U
  | batchEgressTask : Egress U (Batch U)

/-- One iteration of an egress task. -/
def Egress.process : {B : Type} → Egress U B → CuMsg B → Io T U CuResult
  | _, .egressTask => EgressTask.process
  | _, .batchEgressTask => BatchEgressTask.process

/-- The values an input payload stands for. -/
def Egress.values : {B : Type} → Egress U B → Option B → List U
  | _, .egressTask, payload => payload.toList
  | _, .batchEgressTask, payload => (payload.map Batch.values).getD []

/-! ## The calls of the source tasks -/

theorem within_tryIterTake (n : Nat) :
    (tryIterTake n : Io T U (List T)).Within (fun o => ¬ o.IsSend) := by
  induction n with
  | zero => trivial
  | succ n ih =>
    refine Prog.Within.bind ⟨id, fun _ => trivial⟩ ?_
    intro r
    cases r with
    | ok v => exact Prog.Within.bind ih fun _ => trivial
    | error e => trivial

theorem CycleIngressTask.within_process (self : CycleIngressTask) (msg : CuMsg (Cycle T)) :
    (self.process msg : Io T U _).Within (fun o => ¬ o.IsSend) := by
  refine Prog.Within.bind ?_ fun cycle => ⟨id, fun _ => trivial⟩
  exact Prog.Within.bind (within_tryIterTake self.maxBatch) fun events => ⟨id, fun _ => trivial⟩

theorem IngressTask.within_process (msg : CuMsg T) :
    (IngressTask.process msg : Io T U _).Within (fun o => ¬ o.IsSend) := by
  refine ⟨id, ?_⟩
  intro r
  cases r with
  | ok v => exact ⟨id, fun _ => trivial⟩
  | error e => exact ⟨id, fun _ => trivial⟩

/-- The receive attempts of a drain with cap `n` that returned `events`: one for each event,
and a failed one when the drain stopped short of its cap. -/
inductive Drained : Nat → List (IoCall T U) → List T → Prop
  | cap : Drained 0 [] []
  | stop (n : Nat) (e : TryRecvError) : Drained (n + 1) [⟨.tryRecv, .error e⟩] []
  | recv {n : Nat} {cs : List (IoCall T U)} {events : List T} (v : T) :
      Drained n cs events → Drained (n + 1) (⟨.tryRecv, .ok v⟩ :: cs) (v :: events)

theorem yields_tryIterTake {n : Nat} {cs : List (IoCall T U)} {events : List T}
    (h : (tryIterTake n : Io T U (List T)).Yields cs events) : Drained n cs events := by
  induction n generalizing cs events with
  | zero =>
    obtain ⟨rfl, rfl⟩ := (Prog.yields_ret _ _ _).mp h
    exact .cap
  | succ n ih =>
    simp only [tryIterTake, Io.tryRecv, Prog.perform_bind, Prog.yields_call] at h
    obtain ⟨r, ds, rfl, hk⟩ := h
    cases r with
    | error e =>
      obtain ⟨rfl, rfl⟩ := (Prog.yields_ret _ _ _).mp hk
      exact .stop n e
    | ok v =>
      obtain ⟨rest, hrest, rfl⟩ := (Prog.yields_bind_ret _ _ _ _).mp hk
      exact .recv v (ih hrest)

theorem Drained.received {n : Nat} {cs : List (IoCall T U)} {events : List T}
    (h : Drained n cs events) : received cs = events := by
  induction h with
  | cap => rfl
  | stop n e => rfl
  | recv v _ ih => exact congrArg (v :: ·) ih

theorem Drained.readings {n : Nat} {cs : List (IoCall T U)} {events : List T}
    (h : Drained n cs events) : readings cs = [] := by
  induction h with
  | cap => rfl
  | stop n e => rfl
  | recv v _ ih => exact ih

theorem Drained.length_le {n : Nat} {cs : List (IoCall T U)} {events : List T}
    (h : Drained n cs events) : events.length ≤ n := by
  induction h with
  | cap => exact Nat.le_refl 0
  | stop n e => exact Nat.zero_le _
  | recv v _ ih => exact Nat.succ_le_succ ih

theorem Drained.last {n : Nat} {cs : List (IoCall T U)} {events : List T}
    (h : Drained (n + 1) cs events) :
    ∃ (cs' : List (IoCall T U)) (r : Except TryRecvError T), cs = cs' ++ [⟨.tryRecv, r⟩] := by
  induction n generalizing cs events with
  | zero =>
    cases h with
    | stop _ e => exact ⟨[], .error e, rfl⟩
    | recv v h =>
      cases h
      exact ⟨[], .ok v, rfl⟩
  | succ n ih =>
    cases h with
    | stop _ e => exact ⟨[], .error e, rfl⟩
    | recv v h =>
      obtain ⟨cs', r, rfl⟩ := ih h
      exact ⟨⟨.tryRecv, .ok v⟩ :: cs', r, rfl⟩

theorem Drained.failed {n : Nat} {cs : List (IoCall T U)} (hpos : 0 < n)
    (h : Drained n cs ([] : List T)) : ∃ e : TryRecvError, cs = [⟨.tryRecv, .error e⟩] := by
  cases h with
  | cap => exact absurd hpos (Nat.lt_irrefl 0)
  | stop n e => exact ⟨e, rfl⟩

/-- A drain that reached its cap received each event; one that stopped short failed once more. -/
theorem Drained.shape {n : Nat} {cs : List (IoCall T U)} {events : List T}
    (h : Drained n cs events) :
    (events.length = n ∧ cs = events.map fun v => ⟨.tryRecv, .ok v⟩) ∨
      (events.length < n ∧ ∃ e : TryRecvError,
        cs = (events.map fun v => ⟨.tryRecv, .ok v⟩) ++ [⟨.tryRecv, .error e⟩]) := by
  induction h with
  | cap => exact Or.inl ⟨rfl, rfl⟩
  | stop n e => exact Or.inr ⟨Nat.succ_pos n, e, rfl⟩
  | recv v _ ih =>
    rcases ih with ⟨hlen, rfl⟩ | ⟨hlen, e, rfl⟩
    · exact Or.inl ⟨congrArg Nat.succ hlen, rfl⟩
    · exact Or.inr ⟨Nat.succ_lt_succ hlen, e, rfl⟩

theorem yields_cycleStep {maxBatch nowNs : Nat} {cs : List (IoCall T U)} {c : Cycle T}
    (h : (cycleStep maxBatch nowNs : Io T U (Cycle T)).Yields cs c) :
    ∃ drain, Drained maxBatch drain c.events ∧ cs = drain ++ [⟨.len, c.pending⟩] ∧
      c.nowNs = nowNs := by
  obtain ⟨events, drain, cs', rfl, hd, hlen⟩ := (Prog.yields_bind _ _ _ _).mp h
  obtain ⟨pending, ds, rfl, hret⟩ := (Prog.yields_call _ _ _ _).mp hlen
  obtain ⟨rfl, rfl⟩ := (Prog.yields_ret _ _ _).mp hret
  exact ⟨drain, yields_tryIterTake hd, rfl, rfl⟩

/-- One iteration of `CycleIngressTask` drains, measures the rest and then reads the clock. -/
theorem CycleIngressTask.yields_process {self : CycleIngressTask} {msg msg' : CuMsg (Cycle T)}
    {r : CuResult} {cs : List (IoCall T U)}
    (h : (self.process msg : Io T U _).Yields cs (msg', r)) :
    ∃ events drain pending now, Drained self.maxBatch drain events ∧
      cs = drain ++ [⟨.len, pending⟩, ⟨.now, now⟩] ∧ r = .ok () ∧
      msg' = { payload := some { nowNs := now, events, pending }, tov := .time now } := by
  obtain ⟨cycle, cs₁, cs₂, rfl, h₁, h₂⟩ := (Prog.yields_bind _ _ _ _).mp h
  obtain ⟨drain, hd, rfl, -⟩ := yields_cycleStep h₁
  obtain ⟨now, ds, rfl, h₃⟩ := (Prog.yields_call _ _ _ _).mp h₂
  obtain ⟨rfl, hret⟩ := (Prog.yields_ret _ _ _).mp h₃
  cases hret
  exact ⟨cycle.events, drain, cycle.pending, now, hd, by simp, rfl, rfl⟩

/-- One iteration of `IngressTask` makes one receive attempt and then reads the clock. -/
theorem IngressTask.yields_process {msg msg' : CuMsg T} {r : CuResult} {cs : List (IoCall T U)}
    (h : (IngressTask.process msg : Io T U _).Yields cs (msg', r)) :
    ∃ (res : Except TryRecvError T) (now : Nat),
      cs = [⟨.tryRecv, res⟩, ⟨.now, now⟩] ∧ r = .ok () ∧
      msg' = { payload := res.toOption, tov := .time now } := by
  simp only [IngressTask.process, ingressStep, Io.tryRecv, Io.now, Prog.perform_bind,
    Prog.call_bind, Prog.pure_eq, Prog.ret_bind, Prog.yields_call] at h
  obtain ⟨res, ds, rfl, hk⟩ := h
  cases res with
  | ok v =>
    obtain ⟨now, ds', rfl, hret⟩ := (Prog.yields_call _ _ _ _).mp hk
    obtain ⟨rfl, hret⟩ := (Prog.yields_ret _ _ _).mp hret
    cases hret
    exact ⟨.ok v, now, rfl, rfl, rfl⟩
  | error e =>
    obtain ⟨now, ds', rfl, hret⟩ := (Prog.yields_call _ _ _ _).mp hk
    obtain ⟨rfl, hret⟩ := (Prog.yields_ret _ _ _).mp hret
    cases hret
    exact ⟨.error e, now, rfl, rfl, rfl⟩

theorem Ingress.yields_process {A : Type} {ingress : Ingress T A} {msg msg' : CuMsg A}
    {r : CuResult} {cs : List (IoCall T U)}
    (h : (ingress.process msg : Io T U _).Yields cs (msg', r)) :
    ∃ now, msg'.tov = .time now ∧ readings cs = [now] ∧ r = .ok () := by
  cases ingress with
  | ingressTask =>
    obtain ⟨res, now, rfl, rfl, rfl⟩ := IngressTask.yields_process h
    exact ⟨now, rfl, rfl, rfl⟩
  | cycleIngressTask task =>
    obtain ⟨events, drain, pending, now, hd, rfl, rfl, rfl⟩ :=
      CycleIngressTask.yields_process h
    refine ⟨now, rfl, ?_, rfl⟩
    rw [readings_append, hd.readings]
    rfl

/-! ## The calls of the sink tasks -/

/-- The sends of a sink that was given `values`, and its result: in order, up to the first one
that fails. -/
inductive Sends : List U → List (IoCall T U) → CuResult → Prop
  | done : Sends [] [] (.ok ())
  | fail (v : U) (vs : List U) (e : TrySendError) :
      Sends (v :: vs) [⟨.send v, .error e⟩] (.error { msg := sendErrorText })
  | step (v : U) {vs : List U} {cs : List (IoCall T U)} {r : CuResult} :
      Sends vs cs r → Sends (v :: vs) (⟨.send v, .ok ()⟩ :: cs) r

theorem BatchEgressTask.yields_forward {vs : List U} {cs : List (IoCall T U)} {r : CuResult}
    (h : (forward vs : Io T U CuResult).Yields cs r) : Sends vs cs r := by
  induction vs generalizing cs with
  | nil =>
    obtain ⟨rfl, rfl⟩ := (Prog.yields_ret _ _ _).mp h
    exact .done
  | cons v vs ih =>
    simp only [forward, egressStep, Io.send, Prog.perform_bind, Prog.call_bind,
      Prog.yields_call] at h
    obtain ⟨res, ds, rfl, hk⟩ := h
    cases res with
    | ok u => exact .step v (ih hk)
    | error e =>
      obtain ⟨rfl, rfl⟩ := (Prog.yields_ret _ _ _).mp hk
      exact .fail v vs e

theorem BatchEgressTask.yields_process {input : CuMsg (Batch U)} {cs : List (IoCall T U)}
    {r : CuResult} (h : (process input : Io T U CuResult).Yields cs r) :
    Sends ((input.payload.map Batch.values).getD []) cs r := by
  cases hp : input.payload with
  | none =>
    rw [process, hp] at h
    obtain ⟨rfl, rfl⟩ := (Prog.yields_ret _ _ _).mp h
    exact .done
  | some batch =>
    rw [process, hp] at h
    exact yields_forward h

theorem BatchEgressTask.within_process (input : CuMsg (Batch U)) :
    (process input : Io T U CuResult).Within Op.IsSend := by
  have hforward : ∀ vs : List U, (forward vs : Io T U CuResult).Within Op.IsSend := by
    intro vs
    induction vs with
    | nil => trivial
    | cons v vs ih =>
      refine ⟨trivial, ?_⟩
      intro res
      cases res with
      | ok u => exact ih
      | error e => trivial
  unfold process
  cases input.payload with
  | none => trivial
  | some batch => exact hforward batch.values

theorem EgressTask.within_process (input : CuMsg U) :
    (process input : Io T U CuResult).Within Op.IsSend := by
  unfold process egressStep
  cases input.payload with
  | none => trivial
  | some v =>
    refine ⟨trivial, ?_⟩
    intro res
    cases res with
    | ok u => trivial
    | error e => trivial

theorem EgressTask.yields_process {input : CuMsg U} {cs : List (IoCall T U)} {r : CuResult}
    (h : (process input : Io T U CuResult).Yields cs r) : Sends input.payload.toList cs r := by
  cases hp : input.payload with
  | none =>
    rw [process, hp] at h
    obtain ⟨rfl, rfl⟩ := (Prog.yields_ret _ _ _).mp h
    exact .done
  | some v =>
    simp only [process, hp, egressStep, Io.send, Prog.perform_bind, Prog.call_bind,
      Prog.yields_call] at h
    obtain ⟨res, ds, rfl, hk⟩ := h
    cases res with
    | ok u =>
      obtain ⟨rfl, rfl⟩ := (Prog.yields_ret _ _ _).mp hk
      exact .step v .done
    | error e =>
      obtain ⟨rfl, rfl⟩ := (Prog.yields_ret _ _ _).mp hk
      exact .fail v [] e

/-- A sink whose sends all succeeded has sent everything and returns `Ok`. -/
theorem Sends.complete {vs : List U} {cs : List (IoCall T U)} {r : CuResult}
    (h : Sends vs cs r) (hall : delivered cs = sent cs) : sent cs = vs ∧ r = .ok () := by
  induction h with
  | done => exact ⟨rfl, rfl⟩
  | fail v vs e =>
    have hnil : ([] : List U) = [v] := hall
    cases hnil
  | @step v vs cs r _ ih =>
    have htail : delivered cs = sent cs := (List.cons.inj hall).2
    exact ⟨congrArg (v :: ·) (ih htail).1, (ih htail).2⟩

/-- What was accepted of a sink's values are the first of them, and the sink fails exactly when
that is not all. -/
theorem Sends.accepted {vs : List U} {cs : List (IoCall T U)} {r : CuResult}
    (h : Sends vs cs r) :
    delivered cs <+: vs ∧ ((∃ e, r = .error e) ↔ (delivered cs).length < vs.length) := by
  induction h with
  | done => exact ⟨List.prefix_refl _, by simp⟩
  | fail v vs e => exact ⟨List.nil_prefix, iff_of_true ⟨_, rfl⟩ (Nat.succ_pos _)⟩
  | @step v vs cs r _ ih =>
    refine ⟨List.cons_prefix_cons.mpr ⟨rfl, ih.1⟩, ih.2.trans ?_⟩
    exact Nat.succ_lt_succ_iff.symm

theorem Sends.sent_isPrefix {vs : List U} {cs : List (IoCall T U)} {r : CuResult}
    (h : Sends vs cs r) : sent cs <+: vs := by
  induction h with
  | done => exact List.prefix_rfl
  | fail v vs e => exact List.cons_prefix_cons.mpr ⟨rfl, List.nil_prefix⟩
  | step v _ ih => exact List.cons_prefix_cons.mpr ⟨rfl, ih⟩

theorem Sends.of_running {vs : List U} {p q : Io T U CuResult} {cs : List (IoCall T U)}
    (hp : ∀ {ds r}, p.Yields ds r → Sends vs ds r) (h : p.Follows cs q) : sent cs <+: vs := by
  obtain ⟨ds, r, hend⟩ := h.exists_yields Op.someRes
  have hpre := (hp hend).sent_isPrefix
  rw [sent_append] at hpre
  exact (List.prefix_append _ _).trans hpre

/-- Either egress task sends its values in order, up to the first failure. -/
theorem Egress.yields_process {B : Type} {egress : Egress U B} {input : CuMsg B}
    {cs : List (IoCall T U)} {r : CuResult}
    (h : (egress.process input : Io T U CuResult).Yields cs r) :
    Sends (egress.values input.payload) cs r := by
  cases egress with
  | egressTask => exact EgressTask.yields_process h
  | batchEgressTask => exact BatchEgressTask.yields_process h

theorem Egress.within_process {B : Type} (egress : Egress U B) (input : CuMsg B) :
    (egress.process input : Io T U CuResult).Within Op.IsSend := by
  cases egress with
  | egressTask => exact EgressTask.within_process input
  | batchEgressTask => exact BatchEgressTask.within_process input

end Msrs
