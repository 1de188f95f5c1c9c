import Msrs.Lib.Interleave
import Msrs.Lib.Fifo

/-!
# What the tasks use of copper

Message slots, errors, and the operations a task performs on things other threads change too:
the two bridge channels and the clock. A task's `process` is a program over these operations
(`Io`), so that a transport may act between any two of them.

Metadata the tasks neither read nor write is left out of `CuMsg`.
-/

namespace Msrs

open Interleave Fifo

/-- Time of validity of a message. Times are nanoseconds. -/
inductive Tov where
  | none
  | time (t : Nat)
  | range (start stop : Nat)
  deriving DecidableEq

/-- A copperlist slot. -/
structure CuMsg (α : Type) where
  payload : Option α
  tov : Tov
  deriving DecidableEq

namespace CuMsg

variable {α : Type}

/-- A slot nothing has written a time to. -/
def new (payload : Option α) : CuMsg α := { payload := payload, tov := .none }

def setPayload (msg : CuMsg α) (a : α) : CuMsg α := { msg with payload := some a }

/-- Clearing a payload leaves the time of validity as it was. -/
def clearPayload (msg : CuMsg α) : CuMsg α := { msg with payload := none }

@[simp] theorem payload_setPayload (msg : CuMsg α) (a : α) :
    (msg.setPayload a).payload = some a := rfl
@[simp] theorem tov_setPayload (msg : CuMsg α) (a : α) : (msg.setPayload a).tov = msg.tov := rfl
@[simp] theorem payload_clearPayload (msg : CuMsg α) : msg.clearPayload.payload = none := rfl
@[simp] theorem tov_clearPayload (msg : CuMsg α) : msg.clearPayload.tov = msg.tov := rfl

end CuMsg

/-- A task-level fault. -/
structure CuError where
  msg : String
  deriving DecidableEq

abbrev CuResult : Type := Except CuError Unit

/-! ## Operations -/

/-- An operation on what the tasks share with the transport: the inbound channel of `T`, the
outbound channel of `U`, and the clock behind `ctx`. -/
inductive Op (T U : Type) where
  /-- `rx.try_recv()` -/
  | tryRecv
  /-- `rx.len()` -/
  | len
  /-- `ctx.now()` -/
  | now
  /-- `tx.send(v)`; the outbound channel is unbounded, so this never blocks. -/
  | send (v : U)

/-- What an operation answers. -/
@[reducible] def Op.Res {T U : Type} : Op T U → Type
  | .tryRecv => Except TryRecvError T
  | .len => Nat
  | .now => Nat
  | .send _ => Except TrySendError Unit

/-- One answer to each operation: that of empty channels nobody holds, at time 0. -/
def Op.someRes {T U : Type} : (o : Op T U) → o.Res
  | .tryRecv => .error .disconnected
  | .len => (0 : Nat)
  | .now => (0 : Nat)
  | .send _ => .error .disconnected

/-- The operation takes a message out of the inbound channel. -/
def Op.IsRecv {T U : Type} : Op T U → Prop
  | .tryRecv => True
  | _ => False

/-- The operation offers a value to the outbound channel. -/
def Op.IsSend {T U : Type} : Op T U → Prop
  | .send _ => True
  | _ => False

theorem Op.IsSend.not_isRecv {T U : Type} {o : Op T U} (h : o.IsSend) : ¬ o.IsRecv := by
  cases o with
  | send v => exact id
  | tryRecv | len | now => exact absurd h id

/-- Code of a task, over the operations. -/
abbrev Io (T U : Type) : Type → Type := Prog (Op T U) Op.Res

namespace Io

variable {T U : Type}

def tryRecv : Io T U (Except TryRecvError T) := Prog.perform (Op.tryRecv (T := T) (U := U))
def len : Io T U Nat := Prog.perform (Op.len (T := T) (U := U))
def now : Io T U Nat := Prog.perform (Op.now (T := T) (U := U))
def send (v : U) : Io T U (Except TrySendError Unit) :=
  Prog.perform (Op.send (T := T) (U := U) v)

end Io

end Msrs
