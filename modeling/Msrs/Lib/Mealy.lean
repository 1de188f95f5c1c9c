/-!
# Machines that answer every input

A step function takes a state and an input to the next state and an output. `final` and
`outputs` run it over a list of inputs; both split over concatenation, which is all that
comparing a run with a rerun needs. `prescribed_run` compares a run with a specification that
answers from the history alone.
-/

namespace Mealy

variable {σ ι ο : Type} (step : σ → ι → σ × ο)

/-- The state after the inputs. -/
def final (s : σ) : List ι → σ
  | [] => s
  | x :: xs => final (step s x).1 xs

/-- The outputs, one for each input. -/
def outputs (s : σ) : List ι → List ο
  | [] => []
  | x :: xs => (step s x).2 :: outputs (step s x).1 xs

@[simp] theorem final_nil (s : σ) : final step s [] = s := rfl

@[simp] theorem final_cons (s : σ) (x : ι) (xs : List ι) :
    final step s (x :: xs) = final step (step s x).1 xs := rfl

@[simp] theorem outputs_nil (s : σ) : outputs step s [] = [] := rfl

@[simp] theorem outputs_cons (s : σ) (x : ι) (xs : List ι) :
    outputs step s (x :: xs) = (step s x).2 :: outputs step (step s x).1 xs := rfl

theorem final_append (s : σ) (xs ys : List ι) :
    final step s (xs ++ ys) = final step (final step s xs) ys := by
  induction xs generalizing s with
  | nil => rfl
  | cons x xs ih => exact ih _

theorem outputs_append (s : σ) (xs ys : List ι) :
    outputs step s (xs ++ ys) = outputs step s xs ++ outputs step (final step s xs) ys := by
  induction xs generalizing s with
  | nil => rfl
  | cons x xs ih => simp [ih]

theorem final_snoc (s : σ) (xs : List ι) (x : ι) :
    final step s (xs ++ [x]) = (step (final step s xs) x).1 := final_append step s xs [x]

theorem outputs_snoc (s : σ) (xs : List ι) (x : ι) :
    outputs step s (xs ++ [x]) = outputs step s xs ++ [(step (final step s xs) x).2] :=
  outputs_append step s xs [x]

/-- The same machine, keeping a log of its inputs. -/
def logged (sl : σ × List ι) (x : ι) : (σ × List ι) × ο :=
  (((step sl.1 x).1, sl.2 ++ [x]), (step sl.1 x).2)

theorem outputs_logged (sl : σ × List ι) (xs : List ι) :
    outputs (logged step) sl xs = outputs step sl.1 xs := by
  induction xs generalizing sl with
  | nil => rfl
  | cons x xs ih => exact congrArg _ (ih _)

theorem final_logged (sl : σ × List ι) (xs : List ι) :
    final (logged step) sl xs = (final step sl.1 xs, sl.2 ++ xs) := by
  induction xs generalizing sl with
  | nil => simp
  | cons x xs ih =>
    rw [final_cons, ih]
    simp [logged]

@[simp] theorem length_outputs (s : σ) (xs : List ι) :
    (outputs step s xs).length = xs.length := by
  induction xs generalizing s with
  | nil => rfl
  | cons x xs ih => simp [ih]

theorem getElem?_snoc {l : List ι} {x y : ι} {i : Nat} :
    (l ++ [x])[i]? = some y ↔ l[i]? = some y ∨ (i = l.length ∧ x = y) := by
  by_cases hlast : i = l.length
  · subst hlast
    simp
  · by_cases hlt : i < l.length
    · rw [List.getElem?_append_left hlt]
      simp [hlast]
    · have hnone : (l ++ [x])[i]? = none := by
        apply List.getElem?_eq_none
        rw [List.length_append, List.length_singleton]
        omega
      rw [hnone, List.getElem?_eq_none (Nat.le_of_not_lt hlt)]
      simp [hlast]

/-- The answer to one input is the step's, from the state the inputs before it lead to. -/
theorem getElem?_outputs (s : σ) (xs : List ι) (i : Nat) :
    (outputs step s xs)[i]? = xs[i]?.map fun x => (step (final step s (xs.take i)) x).2 := by
  induction xs generalizing s i with
  | nil => rfl
  | cons x xs ih =>
    cases i with
    | zero => rfl
    | succ i => exact ih _ _

theorem outputs_take (s : σ) (xs : List ι) (n : Nat) :
    outputs step s (xs.take n) = (outputs step s xs).take n := by
  induction xs generalizing s n with
  | nil => simp
  | cons x xs ih =>
    cases n with
    | zero => rfl
    | succ n => exact congrArg _ (ih _ n)

theorem outputs_mono (s : σ) {xs ys : List ι} (h : xs <+: ys) :
    outputs step s xs <+: outputs step s ys := by
  obtain ⟨zs, rfl⟩ := h
  rw [outputs_append]
  exact List.prefix_append _ _

/-- A machine that takes inputs in batches, each as the machine takes them one by one: how they
are cut into batches makes no difference. -/
theorem run_batched {β γ : Type} {step : σ → ι → σ × List ο} {batchStep : σ → β → σ × List ο}
    {batch : γ → β} {inputs : γ → List ι}
    (h : ∀ s b, batchStep s (batch b) =
      (final step s (inputs b), (outputs step s (inputs b)).flatten))
    (s : σ) (bs : List γ) :
    final batchStep s (bs.map batch) = final step s (bs.flatMap inputs) ∧
      (outputs batchStep s (bs.map batch)).flatten =
        (outputs step s (bs.flatMap inputs)).flatten := by
  induction bs generalizing s with
  | nil => exact ⟨rfl, rfl⟩
  | cons b bs ih =>
    obtain ⟨hfinal, houtputs⟩ := ih (final step s (inputs b))
    rw [List.map_cons, List.flatMap_cons, final_append, outputs_append, List.flatten_append,
      final_cons, outputs_cons, List.flatten_cons, h]
    exact ⟨hfinal, congrArg _ houtputs⟩

/-- Each output with the state its step led to. -/
def trace (s : σ) : List ι → List (σ × ο)
  | [] => []
  | x :: xs => step s x :: trace (step s x).1 xs

/-! ## Answers the history prescribes -/

/-- The answers a specification over the history gives: `spec past answers x` answers `x` after
the inputs `past`, which were answered with `answers`. -/
def prescribed (spec : List ι → List ο → ι → ο) (past : List ι) (answers : List ο) :
    List ι → List ο
  | [] => []
  | x :: xs => spec past answers x ::
      prescribed spec (past ++ [x]) (answers ++ [spec past answers x]) xs

/-- A relation between states and histories under which every step gives the prescribed answer
and that every step keeps: the whole run gives the prescribed answers, and keeps it. -/
theorem prescribed_run {spec : List ι → List ο → ι → ο} {R : σ → List ι → List ο → Prop}
    (hstep : ∀ s past answers x, R s past answers → (step s x).2 = spec past answers x ∧
      R (step s x).1 (past ++ [x]) (answers ++ [spec past answers x]))
    {s : σ} {past : List ι} {answers : List ο} (h : R s past answers) (xs : List ι) :
    outputs step s xs = prescribed spec past answers xs ∧
      R (final step s xs) (past ++ xs) (answers ++ outputs step s xs) := by
  induction xs generalizing s past answers with
  | nil => exact ⟨rfl, by simpa using h⟩
  | cons x xs ih =>
    obtain ⟨hout, hnext⟩ := hstep s past answers x h
    obtain ⟨houts, hlast⟩ := ih hnext
    refine ⟨?_, ?_⟩
    · rw [outputs_cons, prescribed, hout, houts]
    · rw [outputs_cons, hout]
      simpa using hlast

end Mealy
