import Msrs.Lib.Interleave
import Mathlib.Logic.Function.Basic

/-!
# Histories cut into stages

A history can be cut at a call of one of its stages (`cut_of_calls`), the stamps of a run never
decrease (`hist_sorted`), and the calls of each stage are those of one run of its body
(`run_rule_stages`).
-/

namespace Interleave

variable {Op : Type} {Res : Op → Type} {E A W S : Type}

theorem calls_eq_append_cons {ls : List (Label Op Res E A)} {cs ds : List (Call Op Res)}
    {c : Call Op Res} (h : calls ls = cs ++ c :: ds) :
    ∃ ls₁ ls₂, ls = ls₁ ++ .call c :: ls₂ ∧ calls ls₁ = cs ∧ calls ls₂ = ds := by
  obtain ⟨ls₁, ls₂, rfl, hcs, hcons⟩ := List.filterMap_eq_append_iff.mp h
  obtain ⟨ms₁, l, ms₂, rfl, hnone, hl, hds⟩ := List.filterMap_eq_cons_iff.mp hcons
  cases l with
  | call c' =>
    obtain rfl : c' = c := Option.some.inj hl
    refine ⟨ls₁ ++ ms₁, ms₂, by simp, ?_, hds⟩
    have hms : calls ms₁ = [] := List.filterMap_eq_nil_iff.mpr hnone
    rw [calls_append, hms, List.append_nil]
    exact hcs
  | env e a => cases hl

theorem mem_calls {ls : List (Label Op Res E A)} {c : Call Op Res} :
    c ∈ calls ls ↔ .call c ∈ ls := by
  rw [calls, List.mem_filterMap]
  refine ⟨fun h => ?_, fun h => ?_⟩
  · obtain ⟨l, hl, hc⟩ := h
    cases l with
    | call c' =>
      obtain rfl : c' = c := Option.some.inj hc
      exact hl
    | env e a => cases hc
  · exact ⟨_, h, rfl⟩

/-- A history cut at one of the calls of a stage. -/
theorem cut_of_calls {h : List (Nat × Label Op Res E A)} {k : Nat} {cs ds : List (Call Op Res)}
    {c : Call Op Res} (hc : calls (Shared.labelsOf h k) = cs ++ c :: ds) :
    ∃ pre post, h = pre ++ (k, .call c) :: post ∧ calls (Shared.labelsOf pre k) = cs ∧
      calls (Shared.labelsOf post k) = ds := by
  obtain ⟨ls₁, ls₂, hls, rfl, rfl⟩ := calls_eq_append_cons hc
  obtain ⟨f₁, f₂, hf, rfl, hf₂⟩ := List.map_eq_append_iff.mp hls
  obtain ⟨⟨j, l⟩, f₃, rfl, rfl, rfl⟩ := List.map_eq_cons_iff.mp hf₂
  obtain ⟨h₁, h₂, rfl, rfl, hh₂⟩ := List.filter_eq_append_iff.mp hf
  obtain ⟨skipped, post, rfl, hskipped, hj, rfl⟩ := List.filter_eq_cons_iff.mp hh₂
  obtain rfl : j = k := beq_iff_eq.mp hj
  have hnone : Shared.labelsOf skipped j = [] :=
    Shared.labelsOf_eq_nil fun x hx heq => hskipped x hx (beq_iff_eq.mpr heq)
  refine ⟨h₁ ++ skipped, post, by simp, ?_, rfl⟩
  rw [Shared.labelsOf_append, hnone, List.append_nil]
  rfl

namespace Shared

/-! ## Runs -/

variable {sh : Shared Op Res E A W} {body : Nat → S → Prog Op Res S}

variable (sh body) in
theorem hist_sorted (s : S) (w : W) (sched : List (Choice E)) :
    (sh.run body (start body s w) sched).hist.Pairwise fun x y => x.1 ≤ y.1 := by
  suffices h : (sh.run body (start body s w) sched).hist.Pairwise (fun x y => x.1 ≤ y.1) ∧
      ∀ x ∈ (sh.run body (start body s w) sched).hist,
        x.1 ≤ (sh.run body (start body s w) sched).stage from h.1
  induction sched using List.reverseRecOn with
  | nil => exact ⟨List.Pairwise.nil, fun x hx => absurd hx List.not_mem_nil⟩
  | append_singleton sched x ih =>
    rw [run_snoc]
    generalize sh.run body (start body s w) sched = c at ih
    obtain ⟨hsorted, hle⟩ := ih
    -- A new label bears the stamp of the current stage.
    have hsnoc (l : Label Op Res E A) :
        (c.hist ++ [(c.stage, l)]).Pairwise (fun x y => x.1 ≤ y.1) ∧
          ∀ x ∈ c.hist ++ [(c.stage, l)], x.1 ≤ c.stage := by
      refine ⟨List.pairwise_append.mpr ⟨hsorted, List.pairwise_singleton _ _, ?_⟩, ?_⟩
      · intro x hx y hy
        rw [List.mem_singleton.mp hy]
        exact hle x hx
      · intro x hx
        rcases List.mem_append.mp hx with hx | hx
        · exact hle x hx
        · obtain rfl := List.mem_singleton.mp hx
          exact Nat.le_refl _
    cases x with
    | env e => exact hsnoc _
    | move =>
      cases hcur : c.cur with
      | ret s =>
        simp only [next, hcur]
        exact ⟨hsorted, fun x hx => Nat.le_succ_of_le (hle x hx)⟩
      | call o k =>
        simp only [next, hcur]
        exact hsnoc _

variable (sh body) in
theorem le_stage (s : S) (w : W) (sched : List (Choice E)) :
    ∀ x ∈ (sh.run body (start body s w) sched).hist,
      x.1 ≤ (sh.run body (start body s w) sched).stage := by
  obtain ⟨w₀, h₀, ls, -, -, hhist, hlt⟩ := run_rule sh body (w := w) (s := s)
    (J := fun _ _ _ _ => True) trivial (fun _ _ _ _ _ _ _ _ _ _ => trivial) sched
  intro x hx
  rw [hhist, List.mem_append] at hx
  rcases hx with hx | hx
  · exact Nat.le_of_lt (hlt x hx)
  · exact Nat.le_of_eq (fst_of_mem_stamp hx)

variable (sh body) in
/-- **The run rule, stage by stage.** An invariant of the memory and of the calls of each
finished stage. -/
theorem run_rule_stages {J : Nat → S → (Nat → List (Call Op Res)) → Prop} {s : S} {w : W}
    (h0 : J 0 s fun _ => [])
    (hstep : ∀ k s f ds s', J k s f → (body k s).Yields ds s' →
      J (k + 1) s' (Function.update f k ds))
    (sched : List (Choice E)) :
    ∃ f, J (sh.run body (start body s w) sched).stage
        (sh.run body (start body s w) sched).mem f ∧
      ∀ i, i ≠ (sh.run body (start body s w) sched).stage →
        calls ((sh.run body (start body s w) sched).ofStage i) = f i := by
  obtain ⟨w₀, h₀, ls, hJ, -, hhist, -⟩ := run_rule sh body (w := w)
    (J := fun k s _ h => J k s fun i => calls (labelsOf h i)) h0
    (fun k s w h ls w' s' hJ hlt hran => by
      have hcalls : (fun i => calls (labelsOf (h ++ stamp k ls) i)) =
          Function.update (fun i => calls (labelsOf h i)) k (calls ls) := by
        funext i
        rw [labelsOf_append, calls_append]
        by_cases hi : i = k
        · subst hi
          rw [Function.update_self, labelsOf_stamp_self,
            labelsOf_eq_nil fun x hx => Nat.ne_of_lt (hlt x hx)]
          rfl
        · rw [Function.update_of_ne hi,
            labelsOf_eq_nil fun x hx heq => hi (heq.symm.trans (fst_of_mem_stamp hx)),
            calls_nil, List.append_nil]
      rw [hcalls]
      exact hstep k s _ _ s' hJ hran.yields) sched
  refine ⟨_, hJ, ?_⟩
  intro i hi
  rw [Config.ofStage, hhist, labelsOf_append, calls_append,
    labelsOf_eq_nil fun x hx heq => hi (heq.symm.trans (fst_of_mem_stamp hx)), calls_nil,
    List.append_nil]

end Shared

end Interleave
