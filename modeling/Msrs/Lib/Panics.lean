/-!
# Programs that may panic

A computation panics with a message, or runs out of fuel. The lemmas say what an assertion and an
`expect` do to what comes after them.
-/

namespace Msrs

/-- A computation that may panic with a message; `none` when it runs out of fuel. -/
abbrev Panics (α : Type) : Type := ExceptT String Option α

namespace Panics

/-- `assert!` with its message. -/
def assert (p : Prop) [Decidable p] (msg : String) : Panics Unit := if p then pure () else throw msg

/-- `expect` with its message; the error is its text. -/
def expect {α : Type} (r : Except String α) (msg : String) : Panics α :=
  match r with
  | .ok a => return a
  | .error e => throw (msg ++ ": " ++ e)

variable {α β : Type} {p : Prop} [Decidable p] {msg : String}

theorem assert_bind_of (h : p) (f : Unit → Panics α) : (assert p msg >>= f) = f () := by
  rw [assert, if_pos h]
  rfl

theorem assert_bind_of_not (h : ¬ p) (f : Unit → Panics α) :
    (assert p msg >>= f) = throw msg := by
  rw [assert, if_neg h]
  rfl

theorem assert_of (h : p) : assert p msg = pure () := if_pos h

@[simp] theorem expect_ok (a : α) : expect (.ok a) msg = pure a := rfl

@[simp] theorem expect_error_bind (e : String) (f : α → Panics β) :
    (expect (.error e) msg >>= f) = throw (msg ++ ": " ++ e) := rfl

end Panics

end Msrs
