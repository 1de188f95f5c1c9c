import Msrs.Transport.Driver
import Mathlib.Data.List.Basic

/-!
# The clock of a bridge

What the clock shows after some events (`clock_law`), and that it does not run backwards between
two moments of a history in which it is never set back (`Steady.clockAt_le`).
-/

namespace Msrs

open Interleave

variable {T U : Type}

/-- The time an event sets the clock to. -/
def Event.clock? : Event T U → Option Nat
  | .env (.clock t) _ => some t
  | _ => none

/-- The times the clock is set to. -/
def clocks (ls : List (Event T U)) : List Nat := ls.filterMap Event.clock?

@[simp] theorem clocks_append (ls ms : List (Event T U)) :
    clocks (ls ++ ms) = clocks ls ++ clocks ms := List.filterMap_append

/-- What a clock that starts at `clock` shows after the events. -/
def clockAt (clock : Nat) (ls : List (Event T U)) : Nat := (clocks ls).getLast?.getD clock

@[simp] theorem clockAt_nil (clock : Nat) : clockAt clock ([] : List (Event T U)) = clock := rfl

theorem clockAt_append (clock : Nat) (ls ms : List (Event T U)) :
    clockAt clock (ls ++ ms) = clockAt (clockAt clock ls) ms := by
  unfold clockAt
  rw [clocks_append, List.getLast?_append]
  cases (clocks ms).getLast? <;> rfl

theorem clockAt_mem (clock : Nat) (ls : List (Event T U)) :
    clockAt clock ls ∈ clock :: clocks ls := by
  unfold clockAt
  cases hlast : (clocks ls).getLast? with
  | none => exact List.mem_cons_self
  | some t => exact List.mem_cons_of_mem _ (List.mem_of_getLast? hlast)

/-- The clock is never set back. -/
def Steady (clock : Nat) (ls : List (Event T U)) : Prop :=
  (clock :: clocks ls).Pairwise (· ≤ ·)

theorem Steady.left {clock : Nat} {ls ms : List (Event T U)} (h : Steady clock (ls ++ ms)) :
    Steady clock ls := by
  unfold Steady at *
  rw [clocks_append, ← List.cons_append] at h
  exact (List.pairwise_append.mp h).1

theorem Steady.clockAt_le {clock : Nat} {ls ms : List (Event T U)}
    (h : Steady clock (ls ++ ms)) : clockAt clock ls ≤ clockAt clock (ls ++ ms) := by
  rw [Steady, clocks_append, ← List.cons_append] at h
  obtain ⟨-, -, hle⟩ := List.pairwise_append.mp h
  rw [clockAt_append]
  rcases List.mem_cons.mp (clockAt_mem (clockAt clock ls) ms) with heq | hlater
  · exact Nat.le_of_eq heq.symm
  · exact hle _ (clockAt_mem clock ls) _ hlater

theorem Bridge.clock_act (w : Bridge T U) (e : Act T U) :
    (w.act e).2.clock = clockAt w.clock [.env e (w.act e).1] := by
  cases e with
  | send m | trySend m =>
    show (w.offer m).2.clock = w.clock
    unfold Bridge.offer
    split <;> rfl
  | exit r =>
    show (w.act (.exit r)).2.clock = w.clock
    cases hj : w.join <;> simp [Bridge.act, hj]
  | recv | dropTx | dropRx | clock t => rfl

theorem Bridge.clock_handle (w : Bridge T U) (o : Op T U) : (w.handle o).2.clock = w.clock := by
  cases o <;> rfl

/-- **The clock shows what it was last set to.** -/
theorem clock_law {w w' : Bridge T U} {ls : List (Event T U)} (h : (bridge T U).Legal w ls w') :
    w'.clock = clockAt w.clock ls := by
  refine Shared.Legal.track (bridge T U) (R := fun ls v => v.clock = clockAt w.clock ls)
    ?_ ?_ rfl h
  · intro ls v o ih
    rw [clockAt_append, ← ih]
    exact v.clock_handle o
  · intro ls v e ih
    rw [clockAt_append, ← ih]
    exact v.clock_act e

end Msrs
