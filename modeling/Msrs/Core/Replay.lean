import Msrs.Lib.Mealy
import Mathlib.Algebra.Group.Nat.Defs
import Mathlib.Data.List.Induction

/-!
# The replay gate

`replay.rs`: replay a recording through a step closure and compare the outputs as encoded bytes.
The closure is a step function with its own state, the machine it captures. `p + 1` on ids is
u64 arithmetic, which a debug build checks and a release build wraps; an overflow in a debug
build is a panic, here `none`.

`replayGate_eq` reads the loop off its inputs: the positions of the recording, each with the
output replayed there, and the adjacent pairs of ids. Everything else is about those two lists.
-/

namespace Msrs

variable {σ I O : Type}

/-! ## Machine arithmetic, encoding, formatting -/

/-- Build profile. -/
inductive Build where
  | debug
  | release
  deriving DecidableEq

/-- u64 addition: checked in a debug build, wrapping in a release build. -/
def Build.add (b : Build) (x y : UInt64) : Option UInt64 :=
  match b with
  | .debug => if x.toNat + y.toNat < 2 ^ 64 then some (x + y) else none
  | .release => some (x + y)

structure EncodeError where
  msg : String
  deriving DecidableEq

/-- A bincode encoding, which may fail on some values. -/
class Encode (α : Type) where
  encodeToVec : α → Except EncodeError (List UInt8)

/-- The `Debug` rendering of a value. -/
class Debug (α : Type) where
  fmt : α → String

open Encode Debug

/-! ## The gate -/

/-- One recorded decision: the copperlist id, its input and its output. -/
structure Recorded (I O : Type) where
  id : UInt64
  input : I
  output : O

/-- Result of `replayGate`. -/
structure GateReport where
  /-- Recorded steps replayed. -/
  steps : Nat
  /-- Steps whose replayed output differs from the recording. -/
  divergent : Nat
  firstDivergence : Option String
  /-- `(previous, next)` ids wherever they are not consecutive. -/
  idGaps : List (UInt64 × UInt64)
  deriving DecidableEq

/-- At least one step, no divergence and no id gap. -/
def GateReport.passed (report : GateReport) : Bool :=
  decide (0 < report.steps) && report.divergent == 0 && report.idGaps.isEmpty

/-- The comparison of the gate: encodings that failed compare as nothing. -/
def same [Encode O] (replayed recorded : O) : Bool :=
  (encodeToVec replayed).toOption == (encodeToVec recorded).toOption

/-- The text of a divergence. -/
def divergenceText [Debug I] [Debug O] (r : Recorded I O) (replayed : O) : String :=
  "copperlist " ++ toString r.id ++ ":" ++ ("\n  input:    " ++ fmt r.input ++
    "\n  recorded: " ++ fmt r.output ++ "\n  replayed: " ++ fmt replayed)

/-- What the loop carries: the report so far, the previous id, and the closure's state. -/
structure GateLoop (σ : Type) where
  report : GateReport
  prev : Option UInt64
  machine : σ

/-- One turn of the loop. -/
def gateStep [Encode O] [Debug I] [Debug O] (b : Build) (step : σ → I → σ × O) (l : GateLoop σ)
    (r : Recorded I O) : Option (GateLoop σ) := do
  let idGaps ← match l.prev with
    | some p => do
      let next ← b.add p 1
      pure (if r.id ≠ next then l.report.idGaps ++ [(p, r.id)] else l.report.idGaps)
    | none => pure l.report.idGaps
  let (machine, replayed) := step l.machine r.input
  let report := { l.report with idGaps }
  let report := if same replayed r.output then report else
    { report with
      divergent := report.divergent + 1
      firstDivergence := report.firstDivergence.or (some (divergenceText r replayed)) }
  return { report, prev := some r.id, machine }

/-- Replay `recorded` through `step`, starting from the closure state `s`. The result carries
the state the closure ends in; `none` is the panic of an overflowing `p + 1`. -/
def replayGate [Encode O] [Debug I] [Debug O] (b : Build) (step : σ → I → σ × O) (s : σ)
    (recorded : List (Recorded I O)) : Option (GateReport × σ) := do
  let l ← recorded.foldlM (gateStep b step)
    { report := { steps := recorded.length, divergent := 0, firstDivergence := none, idGaps := [] }
      prev := none
      machine := s }
  return (l.report, l.machine)

/-! ## The loop read off its inputs -/

/-- The recorded steps, each with the output replayed there. -/
def positions (step : σ → I → σ × O) (s : σ) (recorded : List (Recorded I O)) :
    List (Recorded I O × O) :=
  recorded.zip (Mealy.outputs step s (recorded.map Recorded.input))

theorem positions_append (step : σ → I → σ × O) (s : σ) (rs rs' : List (Recorded I O)) :
    positions step s (rs ++ rs') =
      positions step s rs ++ positions step (Mealy.final step s (rs.map Recorded.input)) rs' := by
  unfold positions
  rw [List.map_append, Mealy.outputs_append, List.zip_append (by simp)]

theorem positions_logged (step : σ → I → σ × O) (s : σ) (log : List I)
    (recorded : List (Recorded I O)) :
    positions (Mealy.logged step) (s, log) recorded = positions step s recorded := by
  rw [positions, Mealy.outputs_logged, positions]

/-- The pairs of neighbours of a list. -/
def adjacent {α : Type} (xs : List α) : List (α × α) := xs.zip xs.tail

@[simp] theorem adjacent_cons_cons {α : Type} (x y : α) (xs : List α) :
    adjacent (x :: y :: xs) = (x, y) :: adjacent (y :: xs) := rfl

theorem adjacent_append {α : Type} (xs : List α) (y : α) (ys : List α) :
    adjacent (xs ++ y :: ys) = adjacent (xs ++ [y]) ++ adjacent (y :: ys) := by
  induction xs with
  | nil => rfl
  | cons x xs ih =>
    cases xs with
    | nil => rfl
    | cons x' xs => exact congrArg ((x, x') :: ·) ih

/-- The gate sees a difference at a position. -/
def differs [Encode O] (p : Recorded I O × O) : Bool := !same p.2 p.1.output

/-- The pairs the gate reports as gaps. -/
def isGap (pq : UInt64 × UInt64) : Bool := decide (pq.2 ≠ pq.1 + 1)

variable [Encode O] [Debug I] [Debug O] {b : Build} {step : σ → I → σ × O}

theorem Build.add_eq (b : Build) (x y : UInt64) : b.add x y = none ∨ b.add x y = some (x + y) := by
  cases b with
  | release => exact Or.inr rfl
  | debug =>
    unfold Build.add
    by_cases h : x.toNat + y.toNat < 2 ^ 64
    · exact Or.inr (if_pos h)
    · exact Or.inl (if_neg h)

theorem Build.add_one_eq_none (b : Build) (x : UInt64) :
    b.add x 1 = none ↔ b = .debug ∧ x.toNat = 2 ^ 64 - 1 := by
  have hlt := x.toNat_lt
  cases b with
  | release => simp [Build.add]
  | debug =>
    have hone : x.toNat + (1 : UInt64).toNat = x.toNat + 1 := rfl
    rw [Build.add, hone]
    by_cases hfits : x.toNat + 1 < 2 ^ 64
    · rw [if_pos hfits]
      simp
      omega
    · rw [if_neg hfits]
      simp
      omega

theorem toNat_add_one (x : UInt64) :
    (x + 1).toNat = if x.toNat = 2 ^ 64 - 1 then 0 else x.toNat + 1 := by
  have hlt := x.toNat_lt
  have hone : x.toNat + (1 : UInt64).toNat = x.toNat + 1 := rfl
  rw [UInt64.toNat_add, hone]
  by_cases hlast : x.toNat = 2 ^ 64 - 1
  · rw [if_pos hlast, hlast]
    exact Nat.mod_self _
  · rw [if_neg hlast]
    exact Nat.mod_eq_of_lt (by omega)

/-- No id with a successor in the list is the largest one in a debug build. -/
def Build.Fits (b : Build) (ids : List UInt64) : Prop :=
  ∀ pq ∈ adjacent ids, b.add pq.1 1 ≠ none

instance (b : Build) (ids : List UInt64) : Decidable (b.Fits ids) := List.decidableBAll _ _

@[simp] theorem Build.fits_one (b : Build) (x : UInt64) : b.Fits [x] := by
  simp [Build.Fits, adjacent]

@[simp] theorem Build.fits_pair (b : Build) (x y : UInt64) :
    b.Fits [x, y] ↔ b.add x 1 ≠ none := by
  simp [Build.Fits, adjacent]

theorem Build.fits_append (b : Build) (xs : List UInt64) (y : UInt64) (ys : List UInt64) :
    b.Fits (xs ++ y :: ys) ↔ b.Fits (xs ++ [y]) ∧ b.Fits (y :: ys) := by
  unfold Build.Fits
  rw [adjacent_append, List.forall_mem_append]

/-- The report of a loop that has gone over the given positions and id pairs. -/
def GateReport.extend (report : GateReport) (ps : List (Recorded I O × O))
    (pairs : List (UInt64 × UInt64)) : GateReport :=
  { report with
    divergent := report.divergent + ps.countP differs
    firstDivergence :=
      report.firstDivergence.or ((ps.find? differs).map fun p => divergenceText p.1 p.2)
    idGaps := report.idGaps ++ pairs.filter isGap }

/-- One turn of the loop, without the arithmetic of the ids. -/
theorem gateStep_eq (l : GateLoop σ) (r : Recorded I O) :
    gateStep b step l r =
      if b.Fits (l.prev.toList ++ [r.id]) then
        some { report := l.report.extend [(r, (step l.machine r.input).2)]
                 (adjacent (l.prev.toList ++ [r.id]))
               prev := some r.id
               machine := (step l.machine r.input).1 }
      else none := by
  cases hs : same (step l.machine r.input).2 r.output <;> cases hprev : l.prev with
  | none => simp [gateStep, hprev, hs, adjacent, GateReport.extend, differs]
  | some p =>
    rcases b.add_eq p 1 with hadd | hadd
    · simp [gateStep, hprev, hadd]
    · by_cases hgap : r.id = p + 1 <;>
        simp [gateStep, hprev, hadd, hs, hgap, GateReport.extend, isGap, adjacent, differs]

theorem GateReport.extend_extend (report : GateReport) (ps qs : List (Recorded I O × O))
    (as bs : List (UInt64 × UInt64)) :
    (report.extend ps as).extend qs bs = report.extend (ps ++ qs) (as ++ bs) := by
  simp only [GateReport.extend, List.countP_append, List.filter_append, List.append_assoc,
    Nat.add_assoc, List.find?_append, Option.or_assoc]
  congr 2
  cases ps.find? differs <;> simp

/-- **The loop.** From any state of the loop, over any recording: either some id pair overflows,
or the report is extended by the positions and the id pairs. -/
theorem foldlM_gateStep (l : GateLoop σ) (recorded : List (Recorded I O)) :
    recorded.foldlM (gateStep b step) l =
      if b.Fits (l.prev.toList ++ recorded.map Recorded.id) then
        some { report := l.report.extend (positions step l.machine recorded)
                 (adjacent (l.prev.toList ++ recorded.map Recorded.id))
               prev := (recorded.getLast?.map Recorded.id).or l.prev
               machine := Mealy.final step l.machine (recorded.map Recorded.input) }
      else none := by
  induction recorded generalizing l with
  | nil =>
    have hnone : adjacent (l.prev.toList ++ [].map (Recorded.id (I := I) (O := O))) = [] := by
      cases l.prev <;> rfl
    have hfits : b.Fits (l.prev.toList ++ [].map (Recorded.id (I := I) (O := O))) := by
      intro pq hpq
      rw [hnone] at hpq
      exact absurd hpq List.not_mem_nil
    rw [if_pos hfits, hnone]
    simp [positions, GateReport.extend]
  | cons r rs ih =>
    have hpairs : adjacent (l.prev.toList ++ (r :: rs).map Recorded.id) =
        adjacent (l.prev.toList ++ [r.id]) ++ adjacent (r.id :: rs.map Recorded.id) :=
      adjacent_append _ _ _
    have hfits : b.Fits (l.prev.toList ++ (r :: rs).map Recorded.id) ↔
        b.Fits (l.prev.toList ++ [r.id]) ∧ b.Fits (r.id :: rs.map Recorded.id) :=
      b.fits_append _ _ _
    rw [List.foldlM_cons, gateStep_eq, hpairs]
    by_cases h₁ : b.Fits (l.prev.toList ++ [r.id])
    · rw [if_pos h₁]
      refine (ih _).trans ?_
      by_cases h₂ : b.Fits (r.id :: rs.map Recorded.id)
      · rw [if_pos (hfits.mpr ⟨h₁, h₂⟩)]
        refine (if_pos h₂).trans ?_
        rw [GateReport.extend_extend]
        simp only [positions, Option.some.injEq, GateLoop.mk.injEq]
        refine ⟨rfl, ?_, rfl⟩
        cases rs with
        | nil => rfl
        | cons r' rs => simp [List.getLast?_cons]
      · rw [if_neg fun h => h₂ (hfits.mp h).2]
        exact if_neg h₂
    · rw [if_neg h₁, if_neg fun h => h₁ (hfits.mp h).1]
      rfl

/-- The report of a whole recording. -/
def gateReport (step : σ → I → σ × O) (s : σ) (recorded : List (Recorded I O)) : GateReport :=
  { steps := recorded.length
    divergent := (positions step s recorded).countP differs
    firstDivergence :=
      ((positions step s recorded).find? differs).map fun p => divergenceText p.1 p.2
    idGaps := (adjacent (recorded.map Recorded.id)).filter isGap }

/-- **The gate read off its inputs.** -/
theorem replayGate_eq (s : σ) (recorded : List (Recorded I O)) :
    replayGate b step s recorded =
      if b.Fits (recorded.map Recorded.id) then
        some (gateReport step s recorded, Mealy.final step s (recorded.map Recorded.input))
      else none := by
  unfold replayGate
  rw [foldlM_gateStep]
  have hnone : (none : Option UInt64).toList ++ recorded.map Recorded.id =
      recorded.map Recorded.id := rfl
  simp only [hnone]
  by_cases h : b.Fits (recorded.map Recorded.id)
  · rw [if_pos h, if_pos h]
    simp [GateReport.extend, gateReport]
  · rw [if_neg h, if_neg h]
    rfl

theorem replayGate_final {s s' : σ} {recorded : List (Recorded I O)} {report : GateReport}
    (h : replayGate b step s recorded = some (report, s')) :
    s' = Mealy.final step s (recorded.map Recorded.input) := by
  rw [replayGate_eq] at h
  by_cases hadd : b.Fits (recorded.map Recorded.id)
  · rw [if_pos hadd] at h
    exact (congrArg Prod.snd (Option.some.inj h)).symm
  · rw [if_neg hadd] at h
    cases h

end Msrs
