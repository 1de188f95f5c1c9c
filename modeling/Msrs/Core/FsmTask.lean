import Msrs.Core.Effects
import Msrs.Lib.Mealy

/-!
# FSM tasks

`fsm_task.rs`: a machine is a state with a step; the adapters build a trigger from the input
slot, step the machine with empty effects, and write what it emitted to the output slot.

The adapters read the clock only for an empty input without a time and for the time of validity
of an output. Everything else they do is one `runStepAll` of the machine:
`FsmTask.yields_process` and `FsmBatchTask.yields_process` say which calls each adapter makes
and what it leaves in its output slot.
-/

namespace Msrs

open Interleave

/-- A machine: the state it starts from and its single dispatch step. -/
structure FsmSpec (σ In Out : Type) where
  default : σ
  step : σ → Trigger In → Effects Out → σ × Effects Out

variable {σ In Out T U : Type}

namespace FsmSpec

variable (M : FsmSpec σ In Out)

/-- Run a single step in isolation and return its (at most one) output. An error is the text
of the panic that more than one emission causes. -/
def runStep (machine : σ) (trigger : Trigger In) : σ × Except String (Option Out) :=
  let (machine, effects) := M.step machine trigger .default
  match effects.takeOne.1 with
  | .ok out => (machine, .ok out)
  | .error e => (machine, .error e.toString)

/-- Run a single step in isolation and return every output, in emission order. -/
def runStepAll (machine : σ) (trigger : Trigger In) : σ × List Out :=
  let (machine, effects) := M.step machine trigger .default
  (machine, effects.take.1)

/-- The same machine, keeping a log of its triggers. -/
def traced : FsmSpec (σ × List (Trigger In)) In Out where
  default := (M.default, [])
  step sl trigger effects :=
    let (s, effects) := M.step sl.1 trigger effects
    ((s, sl.2 ++ [trigger]), effects)

theorem runStepAll_traced : M.traced.runStepAll = Mealy.logged M.runStepAll := rfl

/-- The machine emits at most once per step. -/
def EmitsAtMostOnce : Prop := ∀ s t, (M.runStepAll s t).2.length ≤ 1

theorem runStep_eq {s : σ} {t : Trigger In} (h : (M.runStepAll s t).2.length ≤ 1) :
    M.runStep s t = ((M.runStepAll s t).1, .ok (M.runStepAll s t).2.head?) := by
  have hone : (M.step s t .default).2.takeOne.1 = .ok (M.runStepAll s t).2.head? :=
    Effects.takeOne_of_le_one h
  unfold runStep
  rw [show M.step s t .default = ((M.step s t .default).1, (M.step s t .default).2) from rfl]
  simp only [hone]
  rfl

end FsmSpec

/-- The one value of a step that emitted one. -/
def single (outs : List Out) : Option Out := if outs.length ≤ 1 then outs.head? else none

/-- Build the trigger for one `process` cycle: a present payload is a message; an empty input
is a tick stamped with the input's time of validity, and with the clock if it has none. -/
def triggerFor (input : CuMsg In) : Io T U (Trigger In) :=
  match input.payload with
  | some msg => pure (.message msg)
  | none => do
    let ns ← match input.tov with
      | .time t => pure t
      | .range start _ => pure start
      | .none => Io.now
    return .tick ns

theorem triggerFor_some {input : CuMsg In} {m : In} (h : input.payload = some m) :
    (triggerFor input : Io T U (Trigger In)) = .ret (.message m) := by
  simp [triggerFor, h]

theorem triggerFor_time {input : CuMsg In} {t : Nat} (h : input.payload = none)
    (ht : input.tov = .time t) : (triggerFor input : Io T U (Trigger In)) = .ret (.tick t) := by
  simp [triggerFor, h, ht]

theorem triggerFor_range {input : CuMsg In} {start stop : Nat} (h : input.payload = none)
    (ht : input.tov = .range start stop) :
    (triggerFor input : Io T U (Trigger In)) = .ret (.tick start) := by
  simp [triggerFor, h, ht]

theorem triggerFor_none {input : CuMsg In} (h : input.payload = none) (ht : input.tov = .none) :
    (triggerFor input : Io T U (Trigger In)) = .call .now fun ns => .ret (.tick ns) := by
  simp [triggerFor, h, ht, Io.now]

theorem within_triggerFor (input : CuMsg In) :
    (triggerFor input : Io T U (Trigger In)).Within (· = .now) := by
  unfold triggerFor
  cases input.payload with
  | some m => trivial
  | none =>
    cases input.tov with
    | none => exact ⟨rfl, fun _ => trivial⟩
    | time t => trivial
    | range start stop => trivial

/-- Where a trigger comes from: the payload, the time of validity, or the clock. -/
theorem yields_triggerFor {input : CuMsg In} {trigger : Trigger In}
    {cs : List (Call (Op T U) Op.Res)} (h : (triggerFor input).Yields cs trigger) :
    (∃ m, input.payload = some m ∧ trigger = .message m ∧ cs = []) ∨
      ∃ t, input.payload = none ∧ trigger = .tick t ∧
        ((input.tov = .time t ∧ cs = []) ∨ (∃ stop, input.tov = .range t stop ∧ cs = []) ∨
          (input.tov = .none ∧ cs = [⟨.now, t⟩])) := by
  cases hp : input.payload with
  | some m =>
    rw [triggerFor_some hp] at h
    obtain ⟨rfl, rfl⟩ := (Prog.yields_ret _ _ _).mp h
    exact Or.inl ⟨m, rfl, rfl, rfl⟩
  | none =>
    refine Or.inr ?_
    cases ht : input.tov with
    | none =>
      rw [triggerFor_none hp ht] at h
      obtain ⟨t, ds, rfl, hret⟩ := (Prog.yields_call _ _ _ _).mp h
      obtain ⟨rfl, rfl⟩ := (Prog.yields_ret _ _ _).mp hret
      exact ⟨t, rfl, rfl, Or.inr (Or.inr ⟨rfl, rfl⟩)⟩
    | time t =>
      rw [triggerFor_time hp ht] at h
      obtain ⟨rfl, rfl⟩ := (Prog.yields_ret _ _ _).mp h
      exact ⟨t, rfl, rfl, Or.inl ⟨rfl, rfl⟩⟩
    | range start stop =>
      rw [triggerFor_range hp ht] at h
      obtain ⟨rfl, rfl⟩ := (Prog.yields_ret _ _ _).mp h
      exact ⟨start, rfl, rfl, Or.inr (Or.inl ⟨stop, rfl, rfl⟩)⟩

/-- The trigger an input slot stands for by itself: none for an empty slot without a time. -/
def CuMsg.trigger? (input : CuMsg In) : Option (Trigger In) :=
  match input.payload, input.tov with
  | some msg, _ => some (.message msg)
  | none, .time t => some (.tick t)
  | none, .range start _ => some (.tick start)
  | none, .none => none

theorem triggerFor_of_trigger? {input : CuMsg In} {trigger : Trigger In}
    (h : input.trigger? = some trigger) :
    (triggerFor input : Io T U (Trigger In)) = .ret trigger := by
  cases hp : input.payload with
  | some m =>
    simp only [CuMsg.trigger?, hp, Option.some.injEq] at h
    rw [triggerFor_some hp, h]
  | none =>
    cases ht : input.tov with
    | none => simp [CuMsg.trigger?, hp, ht] at h
    | time t =>
      simp only [CuMsg.trigger?, hp, ht, Option.some.injEq] at h
      rw [triggerFor_time hp ht, h]
    | range start stop =>
      simp only [CuMsg.trigger?, hp, ht, Option.some.injEq] at h
      rw [triggerFor_range hp ht, h]

theorem trigger?_eq_none {input : CuMsg In} :
    input.trigger? = none ↔ input.payload = none ∧ input.tov = .none := by
  cases hp : input.payload <;> cases ht : input.tov <;> simp [CuMsg.trigger?, hp, ht]

/-! ## `FsmTask` -/

/-- A transform task that owns a machine. -/
structure FsmTask (σ : Type) where
  machine : σ

namespace FsmTask

protected def default (M : FsmSpec σ In Out) : FsmTask σ := { machine := M.default }

/-- Step the machine and forward its one output; a double emit is a fault, not a drop. -/
def process (M : FsmSpec σ In Out) (self : FsmTask σ) (input : CuMsg In) (output : CuMsg Out) :
    Io T U (FsmTask σ × CuMsg Out × CuResult) := do
  let trigger ← triggerFor input
  let (machine, effects) := M.step self.machine trigger .default
  match effects.takeOne.1 with
  | .ok (some out) => do
    let output := output.setPayload out
    let now ← Io.now
    return ({ machine }, { output with tov := .time now }, .ok ())
  | .ok none => return ({ machine }, output.clearPayload, .ok ())
  | .error e => return ({ machine }, output.clearPayload, .error { msg := e.toString })

theorem within_process (M : FsmSpec σ In Out) (self : FsmTask σ) (input : CuMsg In)
    (output : CuMsg Out) : (process M self input output : Io T U _).Within (· = .now) := by
  apply (within_triggerFor input).bind
  intro trigger
  dsimp only
  cases (M.step self.machine trigger .default).2.takeOne.1 with
  | error e => trivial
  | ok out =>
    cases out with
    | none => trivial
    | some v => exact ⟨rfl, fun _ => trivial⟩

/-- What is left in the output slot, and through which calls, for the values a step emitted. -/
inductive Forwards (output : CuMsg Out) :
    List Out → List (Call (Op T U) Op.Res) → CuMsg Out → CuResult → Prop
  | nothing : Forwards output [] [] output.clearPayload (.ok ())
  | one (v : Out) (t : Nat) :
      Forwards output [v] [⟨.now, t⟩] { payload := some v, tov := .time t } (.ok ())
  | more (vs : List Out) (h : 1 < vs.length) :
      Forwards output vs [] output.clearPayload
        (.error { msg := ({ emitted := vs.length } : ExtraEmits).toString })

theorem Forwards.payload {output output' : CuMsg Out} {vs : List Out}
    {cs : List (Call (Op T U) Op.Res)} {r : CuResult} (h : Forwards output vs cs output' r) :
    output'.payload = single vs := by
  cases h with
  | nothing => rfl
  | one v t => rfl
  | more vs hmore =>
    rw [single, if_neg (by omega)]
    rfl

/-- One `process` is the trigger's calls, one step of the machine, and the forwarding. -/
theorem yields_process {M : FsmSpec σ In Out} {self self' : FsmTask σ} {input : CuMsg In}
    {output output' : CuMsg Out} {r : CuResult} {cs : List (Call (Op T U) Op.Res)}
    (h : (process M self input output).Yields cs (self', output', r)) :
    ∃ trigger cs₁ cs₂, cs = cs₁ ++ cs₂ ∧ (triggerFor input).Yields cs₁ trigger ∧
      self'.machine = (M.runStepAll self.machine trigger).1 ∧
      Forwards output (M.runStepAll self.machine trigger).2 cs₂ output' r := by
  obtain ⟨trigger, cs₁, cs₂, rfl, htrig, h⟩ := (Prog.yields_bind _ _ _ _).mp h
  refine ⟨trigger, cs₁, cs₂, rfl, htrig, ?_⟩
  have hall : M.runStepAll self.machine trigger =
      ((M.step self.machine trigger .default).1, (M.step self.machine trigger .default).2.outbox) :=
    rfl
  rw [hall]
  generalize M.step self.machine trigger .default = st at h
  obtain ⟨machine, outs⟩ := st
  obtain ⟨vs⟩ := outs
  match vs with
  | [] =>
    obtain ⟨hcs, hret⟩ := (Prog.yields_ret _ _ _).mp h
    cases hcs
    cases hret
    exact ⟨rfl, .nothing⟩
  | [v] =>
    obtain ⟨t, ds, hcs, hret⟩ := (Prog.yields_call _ _ _ _).mp h
    obtain ⟨hds, hret⟩ := (Prog.yields_ret _ _ _).mp hret
    cases hds
    cases hcs
    cases hret
    exact ⟨rfl, .one v t⟩
  | v :: v' :: vs =>
    obtain ⟨hcs, hret⟩ := (Prog.yields_ret _ _ _).mp h
    cases hcs
    cases hret
    exact ⟨rfl, .more _ (by simp)⟩

theorem yields_turn {M : FsmSpec σ In Out} {self self' : FsmTask σ} {input : CuMsg In}
    {output output' : CuMsg Out} {r : CuResult} {trigger : Trigger In}
    {cs ds : List (Call (Op T U) Op.Res)} (htrig : (triggerFor input).Yields cs trigger)
    (h : (process M self input output).Yields (cs ++ ds) (self', output', r)) :
    self'.machine = (M.runStepAll self.machine trigger).1 ∧
      ∃ es : List (Call (Op T U) Op.Res),
        Forwards output (M.runStepAll self.machine trigger).2 es output' r := by
  obtain ⟨trigger, cs₁, cs₂, heq, htrig', hmachine, hforw⟩ := yields_process h
  obtain ⟨-, rfl⟩ := htrig'.unique htrig heq.symm
  exact ⟨hmachine, cs₂, hforw⟩

end FsmTask

/-! ## `FsmBatchTask` -/

/-- A batch of payloads carried as one copper message. -/
structure Batch (α : Type) where
  values : List α
  deriving DecidableEq

/-- Like `FsmTask`, but forwards every value a step emits as one `Batch`. -/
structure FsmBatchTask (σ : Type) where
  machine : σ

namespace FsmBatchTask

protected def default (M : FsmSpec σ In Out) : FsmBatchTask σ := { machine := M.default }

def process (M : FsmSpec σ In Out) (self : FsmBatchTask σ) (input : CuMsg In)
    (output : CuMsg (Batch Out)) :
    Io T U (FsmBatchTask σ × CuMsg (Batch Out) × CuResult) := do
  let trigger ← triggerFor input
  let (machine, effects) := M.step self.machine trigger .default
  let outs := effects.take.1
  if outs.isEmpty then
    return ({ machine }, output.clearPayload, .ok ())
  else do
    let output := output.setPayload { values := outs }
    let now ← Io.now
    return ({ machine }, { output with tov := .time now }, .ok ())

theorem within_process (M : FsmSpec σ In Out) (self : FsmBatchTask σ) (input : CuMsg In)
    (output : CuMsg (Batch Out)) :
    (process M self input output : Io T U _).Within (· = .now) := by
  apply (within_triggerFor input).bind
  intro trigger
  dsimp only
  by_cases hempty : (M.step self.machine trigger .default).2.take.1.isEmpty = true
  · rw [if_pos hempty]
    trivial
  · rw [if_neg hempty]
    exact ⟨rfl, fun _ => trivial⟩

/-- What is left in the output slot, and through which calls, for the values a step emitted. -/
inductive Forwards (output : CuMsg (Batch Out)) :
    List Out → List (Call (Op T U) Op.Res) → CuMsg (Batch Out) → Prop
  | nothing : Forwards output [] [] output.clearPayload
  | batch (vs : List Out) (h : vs ≠ []) (t : Nat) :
      Forwards output vs [⟨.now, t⟩] { payload := some ⟨vs⟩, tov := .time t }

/-- One `process` is the trigger's calls, one step of the machine, and the forwarding; it never
fails. -/
theorem yields_process {M : FsmSpec σ In Out} {self self' : FsmBatchTask σ} {input : CuMsg In}
    {output output' : CuMsg (Batch Out)} {r : CuResult} {cs : List (Call (Op T U) Op.Res)}
    (h : (process M self input output).Yields cs (self', output', r)) :
    ∃ trigger cs₁ cs₂, cs = cs₁ ++ cs₂ ∧ (triggerFor input).Yields cs₁ trigger ∧
      self'.machine = (M.runStepAll self.machine trigger).1 ∧ r = .ok () ∧
      Forwards output (M.runStepAll self.machine trigger).2 cs₂ output' := by
  obtain ⟨trigger, cs₁, cs₂, rfl, htrig, h⟩ := (Prog.yields_bind _ _ _ _).mp h
  refine ⟨trigger, cs₁, cs₂, rfl, htrig, ?_⟩
  have hall : M.runStepAll self.machine trigger =
      ((M.step self.machine trigger .default).1, (M.step self.machine trigger .default).2.outbox) :=
    rfl
  rw [hall]
  generalize M.step self.machine trigger .default = st at h
  obtain ⟨machine, outs⟩ := st
  obtain ⟨vs⟩ := outs
  match vs with
  | [] =>
    obtain ⟨hcs, hret⟩ := (Prog.yields_ret _ _ _).mp h
    cases hcs
    cases hret
    exact ⟨rfl, rfl, .nothing⟩
  | v :: vs =>
    obtain ⟨t, ds, hcs, hret⟩ := (Prog.yields_call _ _ _ _).mp h
    obtain ⟨hds, hret⟩ := (Prog.yields_ret _ _ _).mp hret
    cases hds
    cases hcs
    cases hret
    exact ⟨rfl, rfl, .batch _ (by simp) t⟩

theorem yields_turn {M : FsmSpec σ In Out} {self self' : FsmBatchTask σ} {input : CuMsg In}
    {output output' : CuMsg (Batch Out)} {r : CuResult} {trigger : Trigger In}
    {cs ds : List (Call (Op T U) Op.Res)} (htrig : (triggerFor input).Yields cs trigger)
    (h : (process M self input output).Yields (cs ++ ds) (self', output', r)) :
    self'.machine = (M.runStepAll self.machine trigger).1 ∧ r = .ok () ∧
      ∃ es : List (Call (Op T U) Op.Res),
        Forwards output (M.runStepAll self.machine trigger).2 es output' := by
  obtain ⟨trigger, cs₁, cs₂, heq, htrig', hmachine, hok, hforw⟩ := yields_process h
  obtain ⟨-, rfl⟩ := htrig'.unique htrig heq.symm
  exact ⟨hmachine, hok, cs₂, hforw⟩

end FsmBatchTask

end Msrs
