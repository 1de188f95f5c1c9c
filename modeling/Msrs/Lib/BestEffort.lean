import Msrs.Lib.Prog
import Mathlib.Data.List.Forall2

/-!
# Best effort

A program that tries one thing after the other whatever came of the ones before, and keeps the
first failure. `yields_foldlM` reads such a loop off its turns: one attempt for each element, with
its calls and its effect on the accumulator. `foldl_or` and `result` say what an accumulator that
is never overwritten ends with.
-/

namespace Interleave

variable {Op : Type} {Res : Op → Type} {α β τ ε : Type}

/-- A loop whose turn at `x` is any attempt `t` with `T x t`, which makes the calls `calls t` and
takes the accumulator `b` to `next b t`. -/
theorem Prog.yields_foldlM {f : β → α → Prog Op Res β} {T : α → τ → Prop}
    {calls : τ → List (Call Op Res)} {next : β → τ → β}
    (hf : ∀ b x cs b', (f b x).Yields cs b' ↔ ∃ t, T x t ∧ cs = calls t ∧ b' = next b t)
    (xs : List α) (b : β) (cs : List (Call Op Res)) (b' : β) :
    (xs.foldlM f b).Yields cs b' ↔
      ∃ ts, List.Forall₂ T xs ts ∧ cs = ts.flatMap calls ∧ b' = ts.foldl next b := by
  induction xs generalizing b cs with
  | nil =>
    simp only [List.forall₂_nil_left_iff]
    refine ⟨fun h => ?_, fun h => ?_⟩
    · obtain ⟨rfl, rfl⟩ := (Prog.yields_ret _ _ _).mp h
      exact ⟨[], rfl, rfl, rfl⟩
    · obtain ⟨ts, rfl, rfl, rfl⟩ := h
      exact (Prog.yields_ret _ _ _).mpr ⟨rfl, rfl⟩
  | cons x xs ih =>
    rw [List.foldlM_cons, Prog.yields_bind]
    refine ⟨fun h => ?_, fun h => ?_⟩
    · obtain ⟨b₁, cs₁, cs₂, rfl, hx, hxs⟩ := h
      obtain ⟨t, ht, rfl, rfl⟩ := (hf _ _ _ _).mp hx
      obtain ⟨ts, hts, rfl, rfl⟩ := (ih _ _).mp hxs
      exact ⟨t :: ts, .cons ht hts, rfl, rfl⟩
    · obtain ⟨ts, hts, rfl, rfl⟩ := h
      cases hts with
      | cons ht hts =>
        exact ⟨_, _, _, List.flatMap_cons, (hf _ _ _ _).mpr ⟨_, ht, rfl, rfl⟩,
          (ih _ _).mpr ⟨_, hts, rfl, rfl⟩⟩

theorem foldl_or (failure : τ → Option ε) (first : Option ε) (ts : List τ) :
    ts.foldl (fun first t => first.or (failure t)) first = first.or (ts.findSome? failure) := by
  induction ts generalizing first with
  | nil => simp
  | cons t ts ih =>
    rw [List.foldl_cons, ih, Option.or_assoc, List.findSome?_cons]
    cases failure t <;> rfl

/-- What attempts come to: the first failure, if there is one. -/
def result (failure : τ → Option ε) (ts : List τ) : Except ε Unit :=
  match ts.findSome? failure with
  | none => .ok ()
  | some e => .error e

theorem result_eq_ok {failure : τ → Option ε} {ts : List τ} :
    result failure ts = .ok () ↔ ∀ t ∈ ts, failure t = none := by
  rw [← List.findSome?_eq_none_iff, result]
  cases ts.findSome? failure <;> simp

theorem result_eq_error {failure : τ → Option ε} {ts : List τ} {e : ε} :
    result failure ts = .error e ↔ ∃ pre t post, ts = pre ++ t :: post ∧
      failure t = some e ∧ ∀ t' ∈ pre, failure t' = none := by
  rw [← List.findSome?_eq_some_iff, result]
  cases ts.findSome? failure <;> simp

end Interleave
