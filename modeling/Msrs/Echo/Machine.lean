import Msrs.Lib.Statig
import Msrs.Core.FsmTask
import Mathlib.Algebra.Group.Nat.Defs
import Mathlib.Data.List.Enum

/-!
# The echo machine

`echo.rs`: a store that counts the messages, a gate with one state that answers every message
with an echo, and a machine that dispatches the message of a trigger into the gate.

Between steps the machine has drained its buffer and is determined by its count
(`EchoMachine.counted`). From there a message is answered with the next number and a tick with
nothing (`step_message`, `step_tick`), and so over any triggers (`echo_run`).
-/

namespace Msrs

open Statig

/-- The message payload of the echo DAG. -/
structure EchoMsg where
  body : String
  deriving DecidableEq

/-! ## The store -/

/-- The number of messages echoed so far. The count wraps, as in a build without overflow
checks. -/
structure EchoStore where
  count : UInt64
  deriving DecidableEq

namespace EchoStore

protected def default : EchoStore := { count := 0 }

/-- Format an echo of `msg`; the count is left to the caller. -/
def echo (store : EchoStore) (msg : String) : String :=
  "echo " ++ toString (store.count + 1).toNat ++ ": " ++ msg

end EchoStore

/-! ## The gate -/

/-- Context injected into the handlers. -/
structure EchoCtx where
  store : EchoStore
  /-- Output of the last dispatch. -/
  emitted : Option String
  deriving DecidableEq

protected def EchoCtx.default : EchoCtx := { store := .default, emitted := none }

/-- One inbound message body. -/
structure EchoEvent where
  body : String

inductive EchoState where
  | running
  deriving DecidableEq

namespace EchoGate

/-- The only state: echo every message, and stay. -/
def running (context : EchoCtx) (event : EchoEvent) : Outcome EchoState × EchoCtx :=
  (.handled, { store := { count := context.store.count + 1 },
               emitted := some (context.store.echo event.body) })

/-- The handler of each state. -/
def handler : EchoState → EchoCtx → EchoEvent → Outcome EchoState × EchoCtx
  | .running => running

end EchoGate

/-! ## The machine -/

/-- The gate under way. -/
abbrev EchoMachine : Type := Machine EchoState EchoCtx

namespace EchoMachine

protected def default : EchoMachine := { state := .running, ctx := .default }

/-- The machine with an empty buffer. -/
def drained (m : EchoMachine) : EchoMachine := { m with ctx := { m.ctx with emitted := none } }

/-- Dispatch the message of a trigger, and emit what the gate leaves. -/
def step (m : EchoMachine) (trigger : Trigger EchoMsg) (effects : Effects EchoMsg) :
    EchoMachine × Effects EchoMsg :=
  match trigger.message? with
  | some msg =>
    let m := (drained m).handleWithContext EchoGate.handler { body := msg.body }
    match m.ctx.emitted with
    | some out => (drained m, effects.emit { body := out })
    | none => (drained m, effects)
  | none => (m, effects)

/-- The machine after `n` messages. -/
def counted (n : Nat) : EchoMachine :=
  { state := .running, ctx := { store := { count := UInt64.ofNat n }, emitted := none } }

end EchoMachine

/-- The echo service's machine. -/
def echo : FsmSpec EchoMachine EchoMsg EchoMsg :=
  { default := .default, step := EchoMachine.step }

/-! ## What it answers -/

/-- The answer to the `i`-th message. -/
def echoed (i : Nat) (msg : EchoMsg) : EchoMsg :=
  { body := "echo " ++ toString i ++ ": " ++ msg.body }

/-- The answers to the messages after the first `n`. -/
def echoes (n : Nat) (msgs : List EchoMsg) : List EchoMsg :=
  (msgs.zipIdx (n + 1)).map fun (msg, i) => echoed i msg

theorem echoes_cons (n : Nat) (msg : EchoMsg) (msgs : List EchoMsg) :
    echoes n (msg :: msgs) = echoed (n + 1) msg :: echoes (n + 1) msgs := rfl

theorem default_counted : echo.default = EchoMachine.counted 0 := rfl

theorem step_tick (m : EchoMachine) (ns : Nat) : echo.runStepAll m (.tick ns) = (m, []) := rfl

theorem step_message {n : Nat} (hn : n + 1 < 2 ^ 64) (msg : EchoMsg) :
    echo.runStepAll (.counted n) (.message msg) =
      (.counted (n + 1), [echoed (n + 1) msg]) := by
  have hcount : UInt64.ofNat n + 1 = UInt64.ofNat (n + 1) := by
    rw [UInt64.ofNat_add]
    rfl
  have hnat : (UInt64.ofNat (n + 1)).toNat = n + 1 := by
    rw [UInt64.toNat_ofNat']
    exact Nat.mod_eq_of_lt hn
  have hstep : echo.runStepAll (.counted n) (.message msg) =
      ({ state := .running, ctx := { store := { count := UInt64.ofNat n + 1 }, emitted := none } },
        [{ body := "echo " ++ toString (UInt64.ofNat n + 1).toNat ++ ": " ++ msg.body }]) := rfl
  rw [hstep, hcount, hnat]
  rfl

example : (echo.runStepAll (.counted 4) (.message ⟨"hi"⟩)).2 = [⟨"echo 5: hi"⟩] := by decide

theorem echo_emitsAtMostOnce : echo.EmitsAtMostOnce := by
  intro m trigger
  cases trigger with
  | tick ns => exact Nat.zero_le 1
  | message msg => exact Nat.le_refl 1

/-- **Every run of triggers.** The messages are answered in order with the next numbers, and the
machine has counted them. -/
theorem echo_run {n : Nat} (triggers : List (Trigger EchoMsg))
    (hfew : n + (triggers.filterMap Trigger.message?).length < 2 ^ 64) :
    Mealy.final echo.runStepAll (.counted n) triggers =
        .counted (n + (triggers.filterMap Trigger.message?).length) ∧
      (Mealy.outputs echo.runStepAll (.counted n) triggers).flatten =
        echoes n (triggers.filterMap Trigger.message?) := by
  induction triggers generalizing n with
  | nil => exact ⟨rfl, rfl⟩
  | cons trigger triggers ih =>
    cases trigger with
    | tick ns =>
      rw [Mealy.final_cons, Mealy.outputs_cons, step_tick]
      exact ih hfew
    | message msg =>
      have hmsgs : (Trigger.message msg :: triggers).filterMap Trigger.message? =
          msg :: triggers.filterMap Trigger.message? := rfl
      rw [hmsgs, List.length_cons] at hfew
      obtain ⟨hfinal, houtputs⟩ := ih (n := n + 1) (by omega)
      rw [hmsgs, List.length_cons, Mealy.final_cons, Mealy.outputs_cons,
        step_message (by omega), List.flatten_cons, hfinal, houtputs, echoes_cons]
      refine ⟨?_, rfl⟩
      congr 1
      omega

end Msrs
