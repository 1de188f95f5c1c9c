import Msrs.Cu

/-!
# Triggers and effects

`trigger.rs` and `effects.rs`: what caused a step, and the write capability handed to it. A
step receives an `Effects` and returns it changed; the adapters drain it afterwards.
-/

namespace Msrs

/-! ## Triggers -/

/-- What caused a step: a periodic tick or an inbound message. -/
inductive Trigger (In : Type) where
  /-- Periodic execution at the given nanosecond timestamp. -/
  | tick (ns : Nat)
  /-- A message arrived this cycle. -/
  | message (m : In)
  deriving DecidableEq

namespace Trigger

variable {In : Type}

/-- The inbound payload, if this is a `message` trigger. -/
def message? : Trigger In → Option In
  | .message m => some m
  | .tick _ => none

/-- The time of a tick. -/
def tick? : Trigger In → Option Nat
  | .tick ns => some ns
  | .message _ => none

end Trigger

/-! ## Effects -/

/-- Output messages buffered during one step. -/
structure Effects (Out : Type) where
  outbox : List Out

/-- A single-output consumer found more than one emission in one step. -/
structure ExtraEmits where
  emitted : Nat
  deriving DecidableEq

/-- The text of an `ExtraEmits`. -/
def ExtraEmits.toString (e : ExtraEmits) : String :=
  "FSM step emitted " ++ ToString.toString e.emitted ++
    " outputs but this adapter forwards at most one; " ++
    "emit once per step or use a batch output (FsmBatchTask / run_step_all)"

namespace Effects

variable {Out : Type}

protected def default : Effects Out := { outbox := [] }

/-- Queue an output message. -/
def emit (e : Effects Out) (value : Out) : Effects Out := { outbox := e.outbox ++ [value] }

def isEmpty (e : Effects Out) : Bool := e.outbox.isEmpty

/-- Drain all buffered outputs in emission order. -/
def take (e : Effects Out) : List Out × Effects Out := (e.outbox, .default)

/-- Drain a single output; more than one is an error, and the buffer is cleared either way. -/
def takeOne (e : Effects Out) : Except ExtraEmits (Option Out) × Effects Out :=
  match e.outbox with
  | [] => (.ok none, .default)
  | [v] => (.ok (some v), .default)
  | vs => (.error { emitted := vs.length }, .default)

@[simp] theorem outbox_default : (Effects.default : Effects Out).outbox = [] := rfl

@[simp] theorem outbox_emit (e : Effects Out) (value : Out) :
    (e.emit value).outbox = e.outbox ++ [value] := rfl

theorem takeOne_of_le_one {e : Effects Out} (h : e.outbox.length ≤ 1) :
    e.takeOne.1 = .ok e.outbox.head? := by
  obtain ⟨vs⟩ := e
  match vs, h with
  | [], _ => rfl
  | [v], _ => rfl

theorem takeOne_of_one_lt {e : Effects Out} (h : 1 < e.outbox.length) :
    e.takeOne.1 = .error { emitted := e.outbox.length } := by
  obtain ⟨vs⟩ := e
  match vs, h with
  | v :: v' :: vs, _ => rfl

@[simp] theorem take_snd (e : Effects Out) : e.take.2 = .default := rfl

@[simp] theorem takeOne_snd (e : Effects Out) : e.takeOne.2 = .default := by
  obtain ⟨vs⟩ := e
  match vs with
  | [] => rfl
  | [v] => rfl
  | v :: v' :: vs => rfl

end Effects

/-! ## Calls on the effects -/

/-- A call of one of the public operations of `Effects`. -/
inductive EffectsOp (Out : Type) where
  | emit (value : Out)
  | isEmpty
  | take
  | takeOne
  deriving DecidableEq

namespace EffectsOp

variable {Out : Type}

/-- What the call leaves of the effects. -/
def perform (e : Effects Out) : EffectsOp Out → Effects Out
  | .emit value => e.emit value
  | .isEmpty => e
  | .take => e.take.2
  | .takeOne => e.takeOne.2

/-- The value the call emits. -/
def emitted? : EffectsOp Out → Option Out
  | .emit value => some value
  | .isEmpty | .take | .takeOne => none

/-- The call takes what is in the buffer. -/
def Drains : EffectsOp Out → Prop
  | .take | .takeOne => True
  | .emit _ | .isEmpty => False

instance : DecidablePred (@Drains Out)
  | .take | .takeOne => isTrue trivial
  | .emit _ | .isEmpty => isFalse id

/-- The values the calls emit, in order. -/
def emitted (ops : List (EffectsOp Out)) : List Out := ops.filterMap emitted?

/-- The effects after the calls. -/
def performAll (e : Effects Out) (ops : List (EffectsOp Out)) : Effects Out :=
  ops.foldl perform e

/-- No call takes what one before it has emitted. -/
def DrainsNothing (ops : List (EffectsOp Out)) : Prop :=
  ops.Pairwise fun op op' => op'.Drains → op.emitted? = none

theorem emitted_snoc (ops : List (EffectsOp Out)) (op : EffectsOp Out) :
    emitted (ops ++ [op]) = emitted ops ++ op.emitted?.toList := by
  rw [emitted, List.filterMap_append]
  cases h : op.emitted? <;> simp [emitted, h]

theorem performAll_snoc (e : Effects Out) (ops : List (EffectsOp Out)) (op : EffectsOp Out) :
    performAll e (ops ++ [op]) = op.perform (performAll e ops) := by
  rw [performAll, List.foldl_append]
  rfl

theorem drainsNothing_snoc (ops : List (EffectsOp Out)) (op : EffectsOp Out) :
    DrainsNothing (ops ++ [op]) ↔ DrainsNothing ops ∧ (op.Drains → emitted ops = []) := by
  rw [DrainsNothing, List.pairwise_append, emitted, List.filterMap_eq_nil_iff]
  simp only [List.pairwise_singleton, List.mem_singleton, forall_eq, true_and]
  refine and_congr_right fun _ => ?_
  exact ⟨fun h hdrains a ha => h a ha hdrains, fun h a ha hdrains => h hdrains a ha⟩

theorem drainsNothing_of_emitted {ops : List (EffectsOp Out)} (h : emitted ops = []) :
    DrainsNothing ops := by
  apply List.Pairwise.imp_of_mem (R := fun _ _ => True)
  · intro op op' hop _ _ _
    exact List.filterMap_eq_nil_iff.mp h op hop
  · exact List.pairwise_of_forall fun _ _ => trivial

/-- **What a sequence of calls leaves.** The buffer holds every emitted value, in order, exactly
when no call takes what one before it has emitted. -/
theorem outbox_performAll_iff (ops : List (EffectsOp Out)) :
    (performAll .default ops).outbox = emitted ops ↔ DrainsNothing ops := by
  induction ops using List.reverseRecOn with
  | nil => exact iff_of_true rfl .nil
  | append_singleton ops op ih =>
    rw [performAll_snoc, emitted_snoc, drainsNothing_snoc, ← ih]
    have hclear : [] = emitted ops ++ ([] : List Out) ↔
        (performAll .default ops).outbox = emitted ops ∧ emitted ops = [] := by
      rw [List.append_nil, eq_comm, and_comm]
      exact (and_iff_left_of_imp fun h => ih.mpr (drainsNothing_of_emitted h)).symm
    cases op with
    | emit value | isEmpty => simp [perform, emitted?, Drains]
    | take | takeOne =>
      simp only [perform, Effects.take_snd, Effects.takeOne_snd, Effects.outbox_default, emitted?,
        Option.toList_none, Drains, true_implies]
      exact hclear

end EffectsOp

end Msrs
