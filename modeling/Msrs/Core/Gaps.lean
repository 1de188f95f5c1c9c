import Msrs.Core.Gate

/-!
# The id check at the end of the range

The gate's `p + 1` is machine arithmetic on ids that come from a log, so any u64 may stand next
to any other. Up to the largest id the check compares numbers. After the largest id a debug build
panics, and a release build wraps to 0: it reports every id after the largest one except 0
(`gaps_exact_iff`).
-/

namespace Msrs

/-- The pairs of neighbours of which the second is not the number after the first. -/
def numberGaps (ids : List UInt64) : List (UInt64 × UInt64) :=
  (adjacent ids).filter fun pq => decide (pq.2.toNat ≠ pq.1.toNat + 1)

/-! ## One pair -/

/-- The gate misses a gap only between the largest id and 0, and reports none too many. -/
theorem isGap_eq_iff (pq : UInt64 × UInt64) :
    isGap pq = decide (pq.2.toNat ≠ pq.1.toNat + 1) ↔
      ¬ (pq.1.toNat = 2 ^ 64 - 1 ∧ pq.2.toNat = 0) := by
  have hlt := pq.2.toNat_lt
  have hgap : isGap pq = decide (pq.2.toNat ≠ (pq.1 + 1).toNat) := by
    rw [isGap]
    exact decide_eq_decide.mpr (not_congr UInt64.toNat_inj.symm)
  rw [hgap, decide_eq_decide, toNat_add_one]
  by_cases hlast : pq.1.toNat = 2 ^ 64 - 1
  · rw [if_pos hlast]
    omega
  · rw [if_neg hlast]
    omega

theorem filter_eq_filter_iff {α : Type} {p q : α → Bool} {l : List α} :
    l.filter p = l.filter q ↔ ∀ x ∈ l, p x = q x := by
  refine ⟨fun h x hx => ?_, List.filter_congr⟩
  have hmem : x ∈ l.filter p ↔ x ∈ l.filter q := by rw [h]
  rw [List.mem_filter, List.mem_filter, and_iff_right hx, and_iff_right hx] at hmem
  exact Bool.eq_iff_iff.mpr hmem

/-! ## A recording -/

section Gaps

variable {σ I O : Type} [Encode O] [Debug I] [Debug O]

/-- The gate returns, and reports exactly the gaps between the numbers. -/
def GapsExact (b : Build) (step : σ → I → σ × O) (s : σ) (recorded : List (Recorded I O)) :
    Prop :=
  ∃ report s', replayGate b step s recorded = some (report, s') ∧
    report.idGaps = numberGaps (recorded.map Recorded.id)

/-- No largest id has a successor in the list. -/
def NoneAfterLargest (ids : List UInt64) : Prop :=
  ∀ pq ∈ adjacent ids, pq.1.toNat ≠ 2 ^ 64 - 1

/-- No largest id is followed by 0. -/
def NoneWraps (ids : List UInt64) : Prop :=
  ∀ pq ∈ adjacent ids, ¬ (pq.1.toNat = 2 ^ 64 - 1 ∧ pq.2.toNat = 0)

theorem gateReport_idGaps_iff (step : σ → I → σ × O) (s : σ) (recorded : List (Recorded I O)) :
    (gateReport step s recorded).idGaps = numberGaps (recorded.map Recorded.id) ↔
      NoneWraps (recorded.map Recorded.id) := by
  rw [gateReport, numberGaps, filter_eq_filter_iff]
  exact forall₂_congr fun pq _ => isGap_eq_iff pq

theorem gapsExact_iff (b : Build) (step : σ → I → σ × O) (s : σ)
    (recorded : List (Recorded I O)) : GapsExact b step s recorded ↔
      b.Fits (recorded.map Recorded.id) ∧ NoneWraps (recorded.map Recorded.id) := by
  unfold GapsExact
  rw [replayGate_eq, ← gateReport_idGaps_iff step s]
  by_cases hfits : b.Fits (recorded.map Recorded.id)
  · simp [hfits]
  · simp [hfits]

/-- **Id gaps over the whole range.** Whatever the ids and their order, the gate of a debug build
returns with exactly the gaps between the numbers if and only if nothing follows the largest id,
and the gate of a release build if and only if 0 does not follow it; so both do if and only if
nothing follows the largest id. -/
theorem gaps_exact_iff (step : σ → I → σ × O) (s : σ) (recorded : List (Recorded I O)) :
    (GapsExact .debug step s recorded ↔ NoneAfterLargest (recorded.map Recorded.id)) ∧
      (GapsExact .release step s recorded ↔ NoneWraps (recorded.map Recorded.id)) ∧
      ((∀ b, GapsExact b step s recorded) ↔ NoneAfterLargest (recorded.map Recorded.id)) := by
  have hwraps (h : NoneAfterLargest (recorded.map Recorded.id)) :
      NoneWraps (recorded.map Recorded.id) := fun pq hpq hlast => h pq hpq hlast.1
  have hdebug : GapsExact .debug step s recorded ↔
      NoneAfterLargest (recorded.map Recorded.id) := by
    have hfits : Build.debug.Fits (recorded.map Recorded.id) ↔
        NoneAfterLargest (recorded.map Recorded.id) := by
      refine forall₂_congr fun pq _ => ?_
      rw [ne_eq, Build.add_one_eq_none, and_iff_right rfl]
    rw [gapsExact_iff, hfits]
    exact and_iff_left_of_imp hwraps
  have hrelease : GapsExact .release step s recorded ↔
      NoneWraps (recorded.map Recorded.id) := by
    have hfits : Build.release.Fits (recorded.map Recorded.id) := fun pq _ => by
      rw [ne_eq, Build.add_one_eq_none]
      simp
    rw [gapsExact_iff, and_iff_right hfits]
  refine ⟨hdebug, hrelease, fun h => hdebug.mp (h .debug), fun h b => ?_⟩
  cases b with
  | debug => exact hdebug.mpr h
  | release => exact hrelease.mpr (hwraps h)

end Gaps

/-- The largest id and then 0. -/
def wrappedIds : List (Recorded Unit AsciiText) :=
  [{ id := 18446744073709551615, input := (), output := AsciiText.mk [7] },
    { id := 0, input := (), output := AsciiText.mk [7] }]

/-- On the largest id followed by 0 a debug build panics, and a release build reports no gap. -/
theorem gaps_missed_wrapped :
    let step := fun (_ : Unit) (_ : Unit) => ((), AsciiText.mk [7])
    numberGaps (wrappedIds.map Recorded.id) = [(18446744073709551615, 0)] ∧
      replayGate .debug step () wrappedIds = none ∧ ¬ GapsExact .debug step () wrappedIds ∧
      ¬ GapsExact .release step () wrappedIds := by
  intro step
  have hrelease : replayGate .release step () wrappedIds = some
      ({ steps := 2, divergent := 0, firstDivergence := none, idGaps := [] }, ()) := by decide
  have hdebug : replayGate .debug step () wrappedIds = none := by decide
  refine ⟨by decide, hdebug, ?_, ?_⟩
  · intro h
    obtain ⟨report, s', hgate, -⟩ := h
    rw [hdebug] at hgate
    cases hgate
  · intro h
    obtain ⟨report, s', hgate, hgaps⟩ := h
    rw [hrelease] at hgate
    cases hgate
    exact absurd hgaps (by decide)

end Msrs
