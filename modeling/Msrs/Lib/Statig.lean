/-!
# Flat state machines with a context

A handler for each state answers an event with an outcome and may change a context. Dispatching
an event runs the handler of the current state once: a transition sets the state, a handled
event keeps it.
-/

namespace Statig

/-- What a handler answers. -/
inductive Outcome (S : Type) where
  | handled
  | transition (s : S)
  deriving DecidableEq

variable {S C E : Type}

/-- A machine under way: the current state and the context injected into its handlers. -/
structure Machine (S C : Type) where
  state : S
  ctx : C

/-- Dispatch one event. -/
def Machine.handleWithContext (handler : S → C → E → Outcome S × C) (m : Machine S C) (e : E) :
    Machine S C :=
  match handler m.state m.ctx e with
  | (.handled, ctx) => { m with ctx }
  | (.transition s, ctx) => { state := s, ctx }

variable {handler : S → C → E → Outcome S × C} {m : Machine S C} {e : E} {ctx : C} {s : S}

theorem handle_handled (h : handler m.state m.ctx e = (.handled, ctx)) :
    m.handleWithContext handler e = { m with ctx } := by
  simp [Machine.handleWithContext, h]

theorem handle_transition (h : handler m.state m.ctx e = (.transition s, ctx)) :
    m.handleWithContext handler e = { state := s, ctx } := by
  simp [Machine.handleWithContext, h]

end Statig
