import Msrs.Lib.Mealy
import Mathlib.Logic.Function.Basic

/-!
# Families of machines, one for each key

A step that reads and writes only the cell of its input's key runs a family of independent
machines: what it leaves in a cell and what it answers there are those of the cell's own machine
on the inputs of that key (`final_at`, `outputs_at`), whatever is done to the other cells in
between.
-/

namespace Keyed

variable {κ σ ι ο : Type} [DecidableEq κ] (key : ι → κ) (cell : σ → ι → σ × ο)

/-- The input goes to the cell of its key. -/
def step (m : κ → σ) (x : ι) : (κ → σ) × ο :=
  (Function.update m (key x) (cell (m (key x)) x).1, (cell (m (key x)) x).2)

theorem step_self (m : κ → σ) (x : ι) :
    (step key cell m x).1 (key x) = (cell (m (key x)) x).1 := Function.update_self _ _ _

theorem step_snd (m : κ → σ) (x : ι) : (step key cell m x).2 = (cell (m (key x)) x).2 := rfl

theorem step_of_ne (m : κ → σ) {x : ι} {k : κ} (h : key x ≠ k) :
    (step key cell m x).1 k = m k := Function.update_of_ne (Ne.symm h) _ _

/-- The inputs of one key. -/
def inputsAt (k : κ) (xs : List ι) : List ι := xs.filter fun x => key x = k

/-- The outputs that answer inputs of one key. -/
def outputsAt (k : κ) (xs : List ι) (ys : List ο) : List ο :=
  ((xs.zip ys).filter fun xy => key xy.1 = k).map Prod.snd

/-- The cell of a key after a run is where the inputs of the key alone have brought it. -/
theorem final_at (m : κ → σ) (xs : List ι) (k : κ) :
    Mealy.final (step key cell) m xs k = Mealy.final cell (m k) (inputsAt key k xs) := by
  induction xs generalizing m with
  | nil => rfl
  | cons x xs ih =>
    rw [Mealy.final_cons, ih]
    by_cases hk : key x = k
    · subst hk
      simp [step_self, inputsAt]
    · simp [step_of_ne key cell m hk, inputsAt, hk]

/-- The answers at a key are those of its cell on the inputs of the key alone. -/
theorem outputs_at (m : κ → σ) (xs : List ι) (k : κ) :
    outputsAt key k xs (Mealy.outputs (step key cell) m xs) =
      Mealy.outputs cell (m k) (inputsAt key k xs) := by
  induction xs generalizing m with
  | nil => rfl
  | cons x xs ih =>
    have hrest := ih (step key cell m x).1
    by_cases hk : key x = k
    · subst hk
      rw [step_self] at hrest
      simp only [outputsAt, inputsAt] at hrest ⊢
      simp [hrest, step_snd]
    · rw [step_of_ne key cell m hk] at hrest
      simp only [outputsAt, inputsAt] at hrest ⊢
      simp [hrest, hk]

theorem outputs_inputsAt (m : κ → σ) (xs : List ι) (k : κ) :
    Mealy.outputs (step key cell) m (inputsAt key k xs) =
      Mealy.outputs cell (m k) (inputsAt key k xs) := by
  induction xs generalizing m with
  | nil => rfl
  | cons x xs ih =>
    by_cases hk : key x = k
    · subst hk
      have hrest := ih (step key cell m x).1
      rw [step_self] at hrest
      simp only [inputsAt] at hrest ⊢
      simp [hrest, step_snd]
    · simpa [inputsAt, hk] using ih m

/-- **Isolation.** The answers at a key do not change when the inputs of all other keys are left
out. -/
theorem isolation (m : κ → σ) (xs : List ι) (k : κ) :
    outputsAt key k xs (Mealy.outputs (step key cell) m xs) =
      Mealy.outputs (step key cell) m (inputsAt key k xs) := by
  rw [outputs_at, outputs_inputsAt]

end Keyed
