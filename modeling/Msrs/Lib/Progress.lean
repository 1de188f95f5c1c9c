import Msrs.Lib.Interleave
import Mathlib.Data.List.Range

/-!
# Going on with a run

From a moment of a run on: the history grows by a legal continuation (`run_extends`), and a loop
that the scheduler lets move again and again gets through every stage, whatever the environment
does or does not do in between (`reaches_stage`).
-/

namespace Interleave

namespace Shared

variable {Op : Type} {Res : Op → Type} {E A W S : Type} {sh : Shared Op Res E A W}
  {body : Nat → S → Prog Op Res S}

theorem run_append (c : Config Op Res E A W S) (sched later : List (Choice E)) :
    sh.run body c (sched ++ later) = sh.run body (sh.run body c sched) later :=
  List.foldl_append

variable (sh body) in
/-- A later moment has the earlier history, and what it has more is legal from there. -/
theorem run_extends (c : Config Op Res E A W S) (sched : List (Choice E)) :
    ∃ h, (sh.run body c sched).hist = c.hist ++ h ∧
      sh.Legal c.world (h.map Prod.snd) (sh.run body c sched).world := by
  induction sched using List.reverseRecOn with
  | nil => exact ⟨[], (List.append_nil _).symm, rfl⟩
  | append_singleton sched x ih =>
    rw [run_snoc]
    generalize sh.run body c sched = d at ih
    obtain ⟨h, hhist, hlegal⟩ := ih
    cases x with
    | env e =>
      refine ⟨h ++ [(d.stage, .env e (sh.act d.world e).1)], ?_, ?_⟩
      · simp only [next, hhist, List.append_assoc]
      · rw [List.map_append]
        exact (sh.legal_append _ _ _ _).mpr ⟨d.world, hlegal, rfl, rfl⟩
    | move =>
      cases hcur : d.cur with
      | ret s => exact ⟨h, by simpa only [next, hcur] using hhist, by simpa only [next, hcur]⟩
      | call o k =>
        refine ⟨h ++ [(d.stage, .call ⟨o, (sh.handle d.world o).1⟩)], ?_, ?_⟩
        · simp only [next, hcur, hhist, List.append_assoc]
        · simp only [next, hcur, List.map_append]
          exact (sh.legal_append _ _ _ _).mpr ⟨d.world, hlegal, rfl, rfl⟩

variable (sh body) in
theorem stage_le_run (c : Config Op Res E A W S) (sched : List (Choice E)) :
    c.stage ≤ (sh.run body c sched).stage := by
  induction sched using List.reverseRecOn with
  | nil => exact Nat.le_refl _
  | append_singleton sched x ih =>
    rw [run_snoc]
    generalize sh.run body c sched = d at ih
    cases x with
    | env e => exact ih
    | move =>
      cases hcur : d.cur with
      | ret s => simpa only [next, hcur] using Nat.le_succ_of_le ih
      | call o k => simpa only [next, hcur] using ih

variable (sh body) in
theorem cur_of_no_calls (s : S) (w : W) (sched : List (Choice E)) :
    let c := sh.run body (start body s w) sched
    calls (c.ofStage c.stage) = [] → c.cur = body c.stage c.mem := by
  intro c hnone
  obtain ⟨cs, ds, -, hfol, -, hds⟩ := run_rule_calls sh body (J := fun _ _ _ => True) (s := s)
    (w := w) trivial (fun _ _ _ _ _ _ _ => trivial) sched
  rw [hds.trans hnone] at hfol
  exact hfol

/-! ## Progress -/

/-- The scheduler lets the loop move again and again. -/
def Fair (f : Nat → Choice E) : Prop := ∀ n, ∃ n', n ≤ n' ∧ f n' = .move

theorem Fair.drop {f : Nat → Choice E} (hf : Fair f) (n : Nat) : Fair fun i => f (n + i) := by
  intro i
  obtain ⟨j, hle, hmove⟩ := hf (n + i)
  obtain ⟨d, rfl⟩ := Nat.exists_eq_add_of_le (Nat.le_trans (Nat.le_add_right n i) hle)
  exact ⟨d, by omega, hmove⟩

/-- The first `n` choices. -/
def first (f : Nat → Choice E) (n : Nat) : List (Choice E) := (List.range n).map f

theorem first_add (f : Nat → Choice E) (n n' : Nat) :
    first f (n + n') = first f n ++ first (fun i => f (n + i)) n' := by
  rw [first, List.range_add, List.map_append, List.map_map]
  rfl

variable (sh body) in
theorem next_move (c : Config Op Res E A W S) {f : Nat → Choice E} (hf : Fair f) :
    ∃ n, f n = .move ∧ (sh.run body c (first f n)).stage = c.stage ∧
      (sh.run body c (first f n)).cur = c.cur := by
  obtain ⟨wait, -, hmove⟩ := hf 0
  induction wait generalizing c f with
  | zero => exact ⟨0, hmove, rfl, rfl⟩
  | succ wait ih =>
    cases h0 : f 0 with
    | move => exact ⟨0, h0, rfl, rfl⟩
    | env e =>
      have hrest := hf.drop 1
      obtain ⟨n, hn, hstage, hcur⟩ := ih (sh.next body c (.env e)) hrest (by
        rwa [Nat.add_comm])
      have hsplit : first f (1 + n) = .env e :: first (fun i => f (1 + i)) n := by
        rw [first_add]
        simp [first, h0]
      refine ⟨1 + n, hn, ?_, ?_⟩
      · rw [hsplit]
        exact hstage
      · rw [hsplit]
        exact hcur

variable (sh body) in
/-- The stage under way ends. The induction is on what is left of it. -/
theorem next_stage (c : Config Op Res E A W S) {f : Nat → Choice E} (hf : Fair f) :
    ∃ n, (sh.run body c (first f n)).stage = c.stage + 1 := by
  obtain ⟨p, hp⟩ : ∃ p, c.cur = p := ⟨_, rfl⟩
  induction p generalizing c f with
  | ret s =>
    obtain ⟨n, hmove, hstage, hcur⟩ := next_move sh body c hf
    refine ⟨n + 1, ?_⟩
    have hsplit : first f (n + 1) = first f n ++ [.move] := by
      rw [first_add]
      simp [first, hmove]
    rw [hsplit, run_snoc, ← hstage]
    simp [next, hcur, hp]
  | call o k ih =>
    obtain ⟨n, hmove, hstage, hcur⟩ := next_move sh body c hf
    have hsplit : first f (n + 1) = first f n ++ [.move] := by
      rw [first_add]
      simp [first, hmove]
    have hnext : (sh.run body c (first f (n + 1))).stage = c.stage ∧ ∃ r,
        (sh.run body c (first f (n + 1))).cur = k r := by
      rw [hsplit, run_snoc, ← hstage]
      simp [next, hcur, hp]
    obtain ⟨hsame, r, hleft⟩ := hnext
    obtain ⟨n', hn'⟩ := ih r _ (hf.drop (n + 1)) hleft
    refine ⟨n + 1 + n', ?_⟩
    rw [first_add, run_append, hn', hsame]

variable (sh body) in
/-- **Progress.** A loop that is let move again and again reaches every stage. -/
theorem reaches_stage (c : Config Op Res E A W S) {f : Nat → Choice E} (hf : Fair f) (k : Nat) :
    ∃ n, k ≤ (sh.run body c (first f n)).stage := by
  induction k with
  | zero => exact ⟨0, Nat.zero_le _⟩
  | succ k ih =>
    obtain ⟨n, hn⟩ := ih
    obtain ⟨n', hn'⟩ :=
      next_stage sh body (sh.run body c (first f n)) (hf.drop n)
    refine ⟨n + n', ?_⟩
    rw [first_add, run_append, hn']
    exact Nat.succ_le_succ hn

end Shared

end Interleave
