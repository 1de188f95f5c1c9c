import Msrs.Core.Replay
import Mathlib.Data.List.Chain

/-!
# What a pass of the gate means

`passes_iff` turns a pass into three facts about the recording: it is not empty, its ids are
consecutive, and no position differs in what its two outputs encode to.

An output that does not encode agrees with another that does not encode, so a pass says that
outputs agree only where one of the two encodes (`gate_sound_iff`). Where all outputs encode,
the gate is exact (`replayGate_exact`).
-/

namespace Msrs

open Encode Debug

/-! ## Consecutive numbers -/

/-- Each number is the one before plus one. -/
def Consecutive (ns : List Nat) : Prop := ns.IsChain fun p q => q = p + 1

namespace Consecutive

variable {ns pre mid post : List Nat} {m n : Nat}

theorem sorted (h : Consecutive ns) : ns.Pairwise (· < ·) := by
  have hlt : ns.IsChain (· < ·) := h.imp fun p q hpq => by omega
  exact List.isChain_iff_pairwise.mp hlt

theorem not_delete (h : Consecutive (pre ++ n :: post)) (hpre : pre ≠ []) (hpost : post ≠ []) :
    ¬ Consecutive (pre ++ post) := by
  intro h'
  obtain ⟨pre, p, rfl⟩ := List.eq_nil_or_concat pre |>.resolve_left hpre
  obtain ⟨q, post, rfl⟩ := List.exists_cons_of_ne_nil hpost
  -- Around the gap the numbers are `p`, `n`, `q`; without `n` they are `p`, `q`.
  have hpnq : Consecutive [p, n, q] := List.IsChain.infix h ⟨pre, post, by simp⟩
  have hpq : Consecutive [p, q] := List.IsChain.infix h' ⟨pre, post, by simp⟩
  simp only [Consecutive, List.isChain_cons_cons, List.isChain_singleton, and_true] at hpnq hpq
  omega

theorem not_repeat (hn : n ∈ pre ++ post) : ¬ Consecutive (pre ++ n :: post) := by
  intro h
  have hsorted := h.sorted
  rw [List.pairwise_append, List.pairwise_cons] at hsorted
  obtain ⟨-, ⟨hpost, -⟩, hpre⟩ := hsorted
  rcases List.mem_append.mp hn with hn | hn
  · exact Nat.lt_irrefl n (hpre n hn n List.mem_cons_self)
  · exact Nat.lt_irrefl n (hpost n hn)

theorem not_exchange (h : Consecutive (pre ++ m :: (mid ++ n :: post))) :
    ¬ Consecutive (pre ++ n :: (mid ++ m :: post)) := by
  intro h'
  have hmn := (List.pairwise_cons.mp (List.pairwise_append.mp h.sorted).2.1).1 n (by simp)
  have hnm := (List.pairwise_cons.mp (List.pairwise_append.mp h'.sorted).2.1).1 m (by simp)
  omega

end Consecutive

theorem forall_mem_adjacent {α : Type} {R : α → α → Prop} (xs : List α) :
    (∀ pq ∈ adjacent xs, R pq.1 pq.2) ↔ xs.IsChain R := by
  induction xs with
  | nil => simp [adjacent]
  | cons x xs ih =>
    cases xs with
    | nil => simp [adjacent]
    | cons y xs =>
      rw [adjacent_cons_cons, List.forall_mem_cons, ih, List.isChain_cons_cons]

/-- Below the largest id consecutive ids are consecutive numbers. -/
theorem adjacent_iff_consecutive {I O : Type} {recorded : List (Recorded I O)}
    (hids : ∀ r ∈ recorded, r.id.toNat < 2 ^ 64 - 1) :
    (∀ pq ∈ adjacent (recorded.map Recorded.id), pq.2 = pq.1 + 1) ↔
      Consecutive (recorded.map fun r => r.id.toNat) := by
  rw [forall_mem_adjacent (R := fun p q : UInt64 => q = p + 1), List.isChain_map, Consecutive,
    List.isChain_map]
  apply List.IsChain.iff_of_mem_imp
  intro r r' hr _
  have hlt := hids r hr
  have hadd : (r.id + 1).toNat = r.id.toNat + 1 := by
    rw [toNat_add_one, if_neg (by omega)]
  rw [← hadd, UInt64.toNat_inj]

/-! ## Encodings -/

section Encodings

variable {O : Type} [Encode O]

/-- An output encodes. -/
def Encodes (o : O) : Prop := ∃ bytes, encodeToVec o = .ok bytes

theorem same_iff (x y : O) :
    same x y = true ↔ ∀ bytes, encodeToVec x = .ok bytes ↔ encodeToVec y = .ok bytes := by
  unfold same
  cases hx : encodeToVec x with
  | error e =>
    cases hy : encodeToVec y with
    | error e' => simp [Except.toOption]
    | ok ys => simp [Except.toOption]
  | ok xs =>
    cases hy : encodeToVec y with
    | error e => simp [Except.toOption]
    | ok ys =>
      simp only [Except.toOption, Except.ok.injEq, beq_iff_eq, Option.some.injEq]
      constructor
      · intro h bytes
        rw [h]
      · intro h
        exact ((h xs).mp rfl).symm

/-- Of two outputs of which one encodes, the gate compares the encodings. -/
theorem same_iff_of_encodes {x y : O} (h : Encodes x ∨ Encodes y) :
    same x y = true ↔ ∃ bytes, encodeToVec x = .ok bytes ∧ encodeToVec y = .ok bytes := by
  rw [same_iff]
  constructor
  · intro hsame
    rcases h with ⟨bytes, hx⟩ | ⟨bytes, hy⟩
    · exact ⟨bytes, hx, (hsame bytes).mp hx⟩
    · exact ⟨bytes, (hsame bytes).mpr hy, hy⟩
  · intro hboth bytes
    obtain ⟨bytes', hx, hy⟩ := hboth
    rw [hx, hy]

theorem same_iff_eq {x y : O} (hx : Encodes x) (hy : Encodes y) :
    same x y = true ↔ encodeToVec y = encodeToVec x := by
  obtain ⟨xs, hx⟩ := hx
  obtain ⟨ys, hy⟩ := hy
  rw [same, hx, hy, beq_iff_eq, eq_comm]
  simp [Except.toOption]

end Encodings

/-! ## Passing -/

variable {σ I O : Type} [Encode O] [Debug I] [Debug O] {b : Build} {step : σ → I → σ × O}
  {s : σ} {recorded : List (Recorded I O)}

/-- The gate passes a recording. -/
def Passes (b : Build) (step : σ → I → σ × O) (s : σ) (recorded : List (Recorded I O)) : Prop :=
  ∃ report s', replayGate b step s recorded = some (report, s') ∧ report.passed = true

/-- The gate rejects a recording. -/
def Fails (b : Build) (step : σ → I → σ × O) (s : σ) (recorded : List (Recorded I O)) : Prop :=
  ∃ report s', replayGate b step s recorded = some (report, s') ∧ report.passed = false

theorem passed_gateReport : (gateReport step s recorded).passed = true ↔ recorded ≠ [] ∧
    (∀ pq ∈ adjacent (recorded.map Recorded.id), pq.2 = pq.1 + 1) ∧
    ∀ p ∈ positions step s recorded, same p.2 p.1.output = true := by
  have hdiv : (positions step s recorded).countP differs = 0 ↔
      ∀ p ∈ positions step s recorded, same p.2 p.1.output = true := by
    simp [List.countP_eq_zero, differs]
  have hgaps : (adjacent (recorded.map Recorded.id)).filter isGap = [] ↔
      ∀ pq ∈ adjacent (recorded.map Recorded.id), pq.2 = pq.1 + 1 := by
    simp [List.filter_eq_nil_iff, isGap]
  simp only [GateReport.passed, gateReport, Bool.and_eq_true, decide_eq_true_eq, beq_iff_eq,
    List.isEmpty_iff, List.length_pos_iff, hdiv, hgaps]
  exact ⟨fun h => ⟨h.1.1, h.2, h.1.2⟩, fun h => ⟨⟨h.1, h.2.2⟩, h.2.1⟩⟩

theorem passes_iff : Passes b step s recorded ↔ recorded ≠ [] ∧
    (∀ pq ∈ adjacent (recorded.map Recorded.id), b.add pq.1 1 = some pq.2) ∧
    ∀ p ∈ positions step s recorded, same p.2 p.1.output = true := by
  unfold Passes
  rw [replayGate_eq]
  by_cases hadd : b.Fits (recorded.map Recorded.id)
  · rw [if_pos hadd]
    have hnext : (∀ pq ∈ adjacent (recorded.map Recorded.id), pq.2 = pq.1 + 1) ↔
        ∀ pq ∈ adjacent (recorded.map Recorded.id), b.add pq.1 1 = some pq.2 := by
      apply forall₂_congr
      intro pq hpq
      rw [(b.add_eq pq.1 1).resolve_left (hadd pq hpq), Option.some.injEq, eq_comm]
    rw [← hnext, ← passed_gateReport]
    refine ⟨fun h => ?_, fun h => ?_⟩
    · obtain ⟨report, s', hout, hpass⟩ := h
      cases hout
      exact hpass
    · exact ⟨_, _, rfl, h⟩
  · rw [if_neg hadd]
    refine ⟨fun h => ?_, fun h => ?_⟩
    · obtain ⟨_, _, hout, -⟩ := h
      cases hout
    · exact absurd (fun pq hpq => by rw [h.2.1 pq hpq]; simp) hadd

theorem GateReport.divergent_of_passed {report : GateReport} (h : report.passed = true) :
    report.divergent = 0 := by
  simp only [GateReport.passed, Bool.and_eq_true, beq_iff_eq] at h
  exact h.1.2

omit [Debug I] [Debug O] in
theorem same_of_outputs
    (hout : recorded.map Recorded.output = Mealy.outputs step s (recorded.map Recorded.input)) :
    ∀ p ∈ positions step s recorded, same p.2 p.1.output = true := by
  intro p hp
  rw [positions, ← hout] at hp
  have hself : p.2 = p.1.output := by
    rw [List.zip_map_right, List.zip, List.zipWith_self, List.map_map, List.mem_map] at hp
    obtain ⟨r, -, rfl⟩ := hp
    rfl
  rw [hself, same]
  exact beq_self_eq_true _

/-- A recording of what the closure itself answers passes, if its ids are consecutive. -/
theorem passes_of_outputs (hne : recorded ≠ [])
    (hids : ∀ pq ∈ adjacent (recorded.map Recorded.id), b.add pq.1 1 = some pq.2)
    (hout : recorded.map Recorded.output = Mealy.outputs step s (recorded.map Recorded.input)) :
    Passes b step s recorded :=
  passes_iff.mpr ⟨hne, hids, same_of_outputs hout⟩

theorem gateReport_firstDivergence {pre post : List (Recorded I O × O)} {p : Recorded I O × O}
    (hsplit : positions step s recorded = pre ++ p :: post) (hp : differs p = true)
    (hpre : ∀ q ∈ pre, differs q = false) :
    (gateReport step s recorded).firstDivergence = some (divergenceText p.1 p.2) := by
  have hfind : (positions step s recorded).find? differs = some p := by
    refine List.find?_eq_some_iff_append.mpr ⟨hp, pre, post, hsplit, fun q hq => ?_⟩
    rw [hpre q hq, Bool.not_false]
  rw [gateReport, hfind, Option.map_some]

/-- A recording of what the closure answers, up to one step that it answers otherwise: the gate
rejects it and names that step. -/
theorem names_first_difference {pre post : List (Recorded I O)} {r : Recorded I O}
    (hfits : b.Fits ((pre ++ r :: post).map Recorded.id))
    (hout : pre.map Recorded.output = Mealy.outputs step s (pre.map Recorded.input))
    (hr : same (step (Mealy.final step s (pre.map Recorded.input)) r.input).2 r.output = false) :
    ∃ report s', replayGate b step s (pre ++ r :: post) = some (report, s') ∧
      report.passed = false ∧ 1 ≤ report.divergent ∧
      report.firstDivergence = some (divergenceText r
        (step (Mealy.final step s (pre.map Recorded.input)) r.input).2) := by
  generalize hstep : step (Mealy.final step s (pre.map Recorded.input)) r.input = sr at hr
  have hpos : positions step s (pre ++ r :: post) =
      positions step s pre ++ (r, sr.2) :: positions step sr.1 post := by
    rw [positions_append, ← hstep]
    rfl
  have hdiff : differs (r, sr.2) = true := by rw [differs, hr, Bool.not_false]
  have hsame : ∀ p ∈ positions step s pre, differs p = false := by
    intro p hp
    rw [differs, same_of_outputs hout p hp, Bool.not_true]
  have hcount : 1 ≤ (gateReport step s (pre ++ r :: post)).divergent := by
    apply List.countP_pos_iff.mpr
    exact ⟨(r, sr.2), by simp [hpos], hdiff⟩
  have hfirst := gateReport_firstDivergence hpos hdiff hsame
  refine ⟨_, _, (replayGate_eq _ _).trans (if_pos hfits), ?_, hcount, hfirst⟩
  rw [← Bool.not_eq_true]
  intro hpass
  rw [GateReport.divergent_of_passed hpass] at hcount
  exact Nat.not_succ_le_zero 0 hcount

/-! ## Soundness -/

/-- If the gate passes, every position's two outputs encode, to the same bytes. -/
def GateSound (b : Build) (step : σ → I → σ × O) (s : σ) (recorded : List (Recorded I O)) :
    Prop :=
  ∀ report s', replayGate b step s recorded = some (report, s') → report.passed = true →
    ∀ p ∈ positions step s recorded,
      ∃ bytes, encodeToVec p.1.output = .ok bytes ∧ encodeToVec p.2 = .ok bytes

/-- The gate is sound on a recording exactly when no position has both of its outputs
unencodable, or an id pair or a position with different encodings fails the gate anyway. -/
theorem gate_sound_iff : GateSound b step s recorded ↔
    (∀ p ∈ positions step s recorded, Encodes p.1.output ∨ Encodes p.2) ∨
      (∃ pq ∈ adjacent (recorded.map Recorded.id), b.add pq.1 1 ≠ some pq.2) ∨
      ∃ p ∈ positions step s recorded, ∃ bytes,
        ¬ (encodeToVec p.1.output = .ok bytes ↔ encodeToVec p.2 = .ok bytes) := by
  constructor
  · intro hsound
    by_contra hcon
    push Not at hcon
    obtain ⟨⟨p, hp, hfail₁, hfail₂⟩, hids, hsame⟩ := hcon
    have hpass : Passes b step s recorded := by
      refine passes_iff.mpr ⟨?_, hids, ?_⟩
      · intro hnil
        simp [hnil, positions] at hp
      · intro q hq
        apply (same_iff _ _).mpr
        intro bytes
        exact (hsame q hq bytes).symm
    obtain ⟨report, s', hout, hpassed⟩ := hpass
    obtain ⟨bytes, henc, -⟩ := hsound report s' hout hpassed p hp
    exact hfail₁ ⟨bytes, henc⟩
  · intro hcond report s' hout hpassed p hp
    obtain ⟨-, hids, hsame⟩ := passes_iff.mp ⟨report, s', hout, hpassed⟩
    rcases hcond with henc | ⟨pq, hpq, hgap⟩ | ⟨q, hq, bytes, hdiff⟩
    · obtain ⟨bytes, h₂, h₁⟩ := (same_iff_of_encodes (henc p hp).symm).mp (hsame p hp)
      exact ⟨bytes, h₁, h₂⟩
    · exact absurd (hids pq hpq) hgap
    · exact absurd ((same_iff _ _).mp (hsame q hq) bytes).symm hdiff

/-- Text that encodes only in ASCII, as a path does only in UTF-8. -/
structure AsciiText where
  bytes : List UInt8
  deriving DecidableEq

instance : Encode AsciiText where
  encodeToVec t := if t.bytes.all (· < 128) then .ok t.bytes else .error { msg := "not ASCII" }

instance : Debug AsciiText where
  fmt t := toString t.bytes

instance : Debug Unit where
  fmt _ := "()"

/-- A recording of one step whose output does not encode passes, whatever replays there. -/
theorem gate_unsound_unencodable :
    ¬ GateSound Build.release (fun (_ : Unit) (_ : Unit) => ((), AsciiText.mk [254])) ()
      [{ id := 0, input := (), output := AsciiText.mk [255] }] := by
  intro hsound
  obtain ⟨bytes, henc, -⟩ := hsound _ _ rfl (by decide) _ (List.mem_singleton.mpr rfl)
  nomatch henc

/-! ## Exactness -/

theorem replayGate_of_lt (hids : ∀ r ∈ recorded, r.id.toNat < 2 ^ 64 - 1) :
    replayGate b step s recorded =
      some (gateReport step s recorded, Mealy.final step s (recorded.map Recorded.input)) := by
  rw [replayGate_eq, if_pos]
  intro pq hpq
  have hmem : pq.1 ∈ recorded.map Recorded.id := (List.of_mem_zip hpq).1
  obtain ⟨r, hr, hid⟩ := List.mem_map.mp hmem
  have hlt := hids r hr
  rw [hid] at hlt
  rw [ne_eq, Build.add_one_eq_none]
  omega

theorem fails_of_not_consecutive (hids : ∀ r ∈ recorded, r.id.toNat < 2 ^ 64 - 1)
    (hgap : ¬ Consecutive (recorded.map fun r => r.id.toNat)) : Fails b step s recorded := by
  refine ⟨_, _, replayGate_of_lt hids, ?_⟩
  by_contra hpass
  rw [Bool.not_eq_false, passed_gateReport, adjacent_iff_consecutive hids] at hpass
  exact hgap hpass.2.1

theorem Passes.first_part {pre post : List (Recorded I O)}
    (h : Passes b step s (pre ++ post)) (hpre : pre ≠ []) : Passes b step s pre := by
  obtain ⟨-, hids, hsame⟩ := passes_iff.mp h
  rw [forall_mem_adjacent (R := fun p q : UInt64 => b.add p 1 = some q), List.map_append] at hids
  rw [positions_append] at hsame
  refine passes_iff.mpr ⟨hpre, ?_, fun p hp => hsame p (List.mem_append_left _ hp)⟩
  rw [forall_mem_adjacent (R := fun p q : UInt64 => b.add p 1 = some q)]
  exact hids.left_of_append

/-- Any deletion of a step from the middle, any repetition of a step and any exchange of two
steps of a recording with consecutive ids is rejected. -/
theorem fails_of_edit (hids : ∀ r ∈ recorded, r.id.toNat < 2 ^ 64 - 1)
    (hconsec : Consecutive (recorded.map fun r => r.id.toNat)) :
    (∀ pre r post, recorded = pre ++ r :: post → pre ≠ [] → post ≠ [] →
        Fails b step s (pre ++ post)) ∧
      (∀ pre post, ∀ r ∈ recorded, recorded = pre ++ post → Fails b step s (pre ++ r :: post)) ∧
      ∀ pre r mid r' post, recorded = pre ++ r :: (mid ++ r' :: post) →
        Fails b step s (pre ++ r' :: (mid ++ r :: post)) := by
  have hfail {edited : List (Recorded I O)} (hsub : edited ⊆ recorded)
      (hgap : ¬ Consecutive (edited.map fun r => r.id.toNat)) : Fails b step s edited :=
    fails_of_not_consecutive (fun q hq => hids q (hsub hq)) hgap
  refine ⟨?_, ?_, ?_⟩
  · intro pre r post hsplit hpre hpost
    subst hsplit
    refine hfail ?_ ?_
    · intro q hq
      simp only [List.mem_append, List.mem_cons] at hq ⊢
      tauto
    · rw [List.map_append, List.map_cons] at hconsec
      rw [List.map_append]
      exact hconsec.not_delete (by simpa using hpre) (by simpa using hpost)
  · intro pre post r hr hsplit
    subst hsplit
    refine hfail ?_ ?_
    · intro q hq
      rcases List.mem_append.mp hq with hq | hq
      · exact List.mem_append_left _ hq
      · rcases List.mem_cons.mp hq with rfl | hq
        · exact hr
        · exact List.mem_append_right _ hq
    · rw [List.map_append, List.map_cons]
      apply Consecutive.not_repeat
      rw [← List.map_append]
      exact List.mem_map_of_mem hr
  · intro pre r mid r' post hsplit
    subst hsplit
    refine hfail ?_ ?_
    · intro q hq
      simp only [List.mem_append, List.mem_cons] at hq ⊢
      tauto
    · rw [List.map_append, List.map_cons, List.map_append, List.map_cons] at hconsec
      rw [List.map_append, List.map_cons, List.map_append, List.map_cons]
      exact hconsec.not_exchange

/-- **The gate is exact.** Below the largest id and where all outputs encode, the closure is
called on every input once and in order, and the report says how many positions differ, which
is the first, and whether the recording passes. -/
theorem replayGate_exact (hids : ∀ r ∈ recorded, r.id.toNat < 2 ^ 64 - 1)
    (hrec : ∀ r ∈ recorded, Encodes r.output)
    (hrep : ∀ o ∈ Mealy.outputs step s (recorded.map Recorded.input), Encodes o) :
    ∃ report,
      replayGate b (Mealy.logged step) (s, []) recorded = some (report,
        Mealy.final step s (recorded.map Recorded.input), recorded.map Recorded.input) ∧
      replayGate b step s recorded =
        some (report, Mealy.final step s (recorded.map Recorded.input)) ∧
      report.divergent = (positions step s recorded).countP
        (fun p => decide (encodeToVec p.1.output ≠ encodeToVec p.2)) ∧
      (report.firstDivergence.isSome = true ↔ 0 < report.divergent) ∧
      (∀ pre p post, positions step s recorded = pre ++ p :: post →
        (∀ q ∈ pre, encodeToVec q.1.output = encodeToVec q.2) →
        encodeToVec p.1.output ≠ encodeToVec p.2 →
        ∃ text, report.firstDivergence =
          some ("copperlist " ++ toString p.1.id ++ ":" ++ text)) ∧
      (report.passed = true ↔ recorded ≠ [] ∧
        Consecutive (recorded.map fun r => r.id.toNat) ∧
        ∀ p ∈ positions step s recorded, encodeToVec p.1.output = encodeToVec p.2) ∧
      (report.passed = true →
        (∀ pre post, recorded = pre ++ post → pre ≠ [] → Passes b step s pre) ∧
        (∀ pre r post, recorded = pre ++ r :: post → pre ≠ [] → post ≠ [] →
          Fails b step s (pre ++ post)) ∧
        (∀ pre post, ∀ r ∈ recorded, recorded = pre ++ post →
          Fails b step s (pre ++ r :: post)) ∧
        ∀ pre r mid r' post, recorded = pre ++ r :: (mid ++ r' :: post) →
          Fails b step s (pre ++ r' :: (mid ++ r :: post))) := by
  have hsame : ∀ p ∈ positions step s recorded,
      (same p.2 p.1.output = true ↔ encodeToVec p.1.output = encodeToVec p.2) := by
    intro p hp
    have hmem := List.of_mem_zip (show (p.1, p.2) ∈ _ from hp)
    exact same_iff_eq (hrep p.2 hmem.2) (hrec p.1 hmem.1)
  have hdiff : ∀ p ∈ positions step s recorded,
      (differs p = true ↔ encodeToVec p.1.output ≠ encodeToVec p.2) := by
    intro p hp
    rw [differs, Bool.not_eq_true', ← Bool.not_eq_true, hsame p hp]
  have hpassed : (gateReport step s recorded).passed = true ↔ recorded ≠ [] ∧
      Consecutive (recorded.map fun r => r.id.toNat) ∧
      ∀ p ∈ positions step s recorded, encodeToVec p.1.output = encodeToVec p.2 := by
    rw [passed_gateReport, adjacent_iff_consecutive hids]
    exact and_congr_right fun _ => and_congr_right fun _ => forall₂_congr hsame
  refine ⟨gateReport step s recorded, ?_, replayGate_of_lt hids, ?_, ?_, ?_, hpassed, ?_⟩
  · rw [replayGate_of_lt hids, Mealy.final_logged]
    simp [gateReport, positions_logged]
  · exact List.countP_congr fun p hp => by rw [hdiff p hp, decide_eq_true_iff]
  · simp [gateReport, List.countP_pos_iff]
  · intro pre p post hsplit hagree hne
    rw [hsplit] at hdiff
    have hp : differs p = true := (hdiff p (by simp)).mpr hne
    have hpre : ∀ q ∈ pre, differs q = false := by
      intro q hq
      rw [← Bool.not_eq_true, hdiff q (by simp [hq])]
      exact not_not_intro (hagree q hq)
    exact ⟨_, gateReport_firstDivergence hsplit hp hpre⟩
  · intro hpass
    refine ⟨?_, fails_of_edit hids (hpassed.mp hpass).2.1⟩
    intro pre post hsplit hpre
    have hall : Passes b step s recorded := ⟨_, _, replayGate_of_lt hids, hpass⟩
    rw [hsplit] at hall
    exact hall.first_part hpre

/-- The gate over a machine that counts in one byte. -/
theorem replayGate_exact_counter : ∃ report : GateReport,
    replayGate Build.debug
        (Mealy.logged fun (n : UInt8) (_ : Unit) => (n + 1, AsciiText.mk [n])) (0, [])
        [{ id := 7, input := (), output := AsciiText.mk [0] },
          { id := 8, input := (), output := AsciiText.mk [1] }] =
      some (report, 2, [(), ()]) := by
  have henc : ∀ n : UInt8, n < 128 → Encodes (AsciiText.mk [n]) := by
    intro n hn
    exact ⟨[n], by simp [encodeToVec, hn]⟩
  have hids : ∀ r ∈ [Recorded.mk 7 () (AsciiText.mk [0]), Recorded.mk 8 () (AsciiText.mk [1])],
      r.id.toNat < 2 ^ 64 - 1 := by decide
  have hrep : ∀ o ∈ Mealy.outputs (fun (n : UInt8) (_ : Unit) => (n + 1, AsciiText.mk [n])) 0
      [(), ()], Encodes o := by simp [henc]
  obtain ⟨report, hlog, -⟩ := replayGate_exact (b := Build.debug) hids (by simp [henc]) hrep
  exact ⟨report, hlog⟩

end Msrs
