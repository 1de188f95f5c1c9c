import Msrs.Core.Adapters

/-!
# What a handler can do to its effects

A step gets its effects as `&mut Effects`, so it can call any public operation of them: besides
`emit` also `take` and `take_one`, which the adapters use to drain the buffer after the step. What
a step emits reaches the output slot exactly when it drains nothing it has emitted
(`nothing_lost_iff`).
-/

namespace Msrs

open Interleave

variable {σ In Out : Type}

/-- The step on this trigger leaves all of these values in the buffer, in order; so
`FsmBatchTask` forwards all of them, and `FsmTask` the only one or fails. -/
structure NothingLost (T U : Type) (M : FsmSpec σ In Out) (s : σ) (trigger : Trigger In)
    (values : List Out) : Prop where
  buffer : (M.step s trigger .default).2.outbox = values
  batch : ∀ input output self' output' r (cs ds : List (Call (Op T U) Op.Res)),
    (triggerFor input).Yields cs trigger →
    (FsmBatchTask.process M { machine := s } input output).Yields (cs ++ ds)
      (self', output', r) →
    r = .ok () ∧ (values = [] → output'.payload = none) ∧
      (values ≠ [] → output'.payload = some { values })
  one : ∀ input output self' output' r (cs ds : List (Call (Op T U) Op.Res)),
    (triggerFor input).Yields cs trigger →
    (FsmTask.process M { machine := s } input output).Yields (cs ++ ds) (self', output', r) →
    (values.length ≤ 1 ∧ r = .ok () ∧ output'.payload = values.head?) ∨
      (1 < values.length ∧ ∃ e, r = .error e)

/-- The adapters forward what the step leaves in the buffer. -/
theorem nothingLost_of_buffer {T U : Type} {M : FsmSpec σ In Out} {s : σ}
    {trigger : Trigger In} {values : List Out}
    (hbuffer : (M.step s trigger .default).2.outbox = values) :
    NothingLost T U M s trigger values where
  buffer := hbuffer
  batch input output self' output' r cs ds htrig h := by
    obtain ⟨-, hok, _, hforw⟩ := FsmBatchTask.yields_turn htrig h
    rw [show (M.runStepAll s trigger).2 = values from hbuffer] at hforw
    exact ⟨hok, hforw.payload.1.mpr, hforw.payload.2⟩
  one input output self' output' r cs ds htrig h := by
    obtain ⟨-, _, hforw⟩ := FsmTask.yields_turn htrig h
    rw [show (M.runStepAll s trigger).2 = values from hbuffer] at hforw
    cases hforw with
    | nothing => exact Or.inl ⟨Nat.zero_le 1, rfl, rfl⟩
    | one v t => exact Or.inl ⟨Nat.le_refl 1, rfl, rfl⟩
    | more vs hmore => exact Or.inr ⟨hmore, _, rfl⟩

/-- **What a handler emits.** Whatever calls a step makes on its effects, in whatever order, what
it emits is all in the buffer afterwards, and forwarded, if and only if no call takes what one
before it has emitted. -/
theorem nothing_lost_iff {T U : Type} {M : FsmSpec σ In Out} {s s' : σ} {trigger : Trigger In}
    {ops : List (EffectsOp Out)}
    (hstep : M.step s trigger .default = (s', EffectsOp.performAll .default ops)) :
    NothingLost T U M s trigger (EffectsOp.emitted ops) ↔ EffectsOp.DrainsNothing ops := by
  have hbuffer : (M.step s trigger .default).2.outbox =
      (EffectsOp.performAll .default ops).outbox := by rw [hstep]
  rw [← EffectsOp.outbox_performAll_iff, ← hbuffer]
  exact ⟨NothingLost.buffer, nothingLost_of_buffer⟩

/-- A machine that makes the given calls for every message. -/
def scripted (ops : In → List (EffectsOp Out)) : FsmSpec Unit In Out where
  default := ()
  step s trigger effects :=
    match trigger with
    | .message m => (s, EffectsOp.performAll effects (ops m))
    | .tick _ => (s, effects)

/-- Two values, with a look at the buffer before each. -/
theorem nothing_lost_two :
    NothingLost Unit Unit
      (scripted fun v : UInt32 => [.isEmpty, .emit v, .isEmpty, .emit (v + 1)]) () (.message 5)
      [5, 6] := by
  have hstep : (scripted fun v : UInt32 => [.isEmpty, .emit v, .isEmpty, .emit (v + 1)]).step ()
      (.message 5) .default =
        ((), EffectsOp.performAll .default [.isEmpty, .emit 5, .isEmpty, .emit (5 + 1)]) := rfl
  have hdrains : EffectsOp.DrainsNothing
      [.isEmpty, .emit 5, .isEmpty, .emit (5 + 1 : UInt32)] := by
    simp [EffectsOp.DrainsNothing, EffectsOp.Drains]
  exact (nothing_lost_iff hstep).mpr hdrains

/-- A value that the step takes back itself: it is lost, and no adapter fails. -/
theorem lost_taken :
    let M := scripted fun v : UInt32 => [.emit v, .take]
    EffectsOp.emitted [.emit (5 : UInt32), .take] = [5] ∧
      ¬ NothingLost Unit Unit M () (.message 5) [5] ∧
      (FsmTask.process M { machine := () } (.new (some 5)) (.new none) : Io Unit Unit _).Yields []
        ({ machine := () }, .new none, .ok ()) ∧
      (FsmBatchTask.process M { machine := () } (.new (some 5)) (.new none) :
        Io Unit Unit _).Yields [] ({ machine := () }, .new none, .ok ()) := by
  intro M
  refine ⟨rfl, ?_, rfl, rfl⟩
  intro h
  exact absurd h.buffer (by decide)

end Msrs
