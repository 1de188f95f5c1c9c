import Msrs.Lib.Statig
import Msrs.Transport.Tasks

/-!
# The watchdog machine

`watchdog.rs`: a store, three states and a machine that dispatches one `Feed` for each event of
a cycle and then one `Check`. Times are nanoseconds and subtraction stops at zero.

`step_tick`, `step_fed` and `step_silent` say what one step does to a machine that has drained
its buffer, as every machine has between steps.
-/

namespace Msrs

open Statig

/-- Inbound heartbeat: a sequence number. -/
structure Feed where
  seq : UInt32
  deriving DecidableEq

/-- Outbound alarm transitions. -/
inductive Alarm where
  /-- First feed seen. -/
  | armed
  /-- No feed for longer than the timeout. -/
  | tripped (silentNs : Nat)
  /-- Feeds resumed after a trip. -/
  | recovered
  deriving DecidableEq

/-- Feed silence that trips the alarm. -/
def timeoutNs : Nat := 50000000

/-! ## The store -/

/-- When the last feed arrived, and how long silence may last. -/
structure WatchdogStore where
  timeoutNs : Nat
  lastFeedNs : Option Nat
  deriving DecidableEq

namespace WatchdogStore

def new (timeoutNs : Nat) : WatchdogStore := { timeoutNs, lastFeedNs := none }

protected def default : WatchdogStore := new Msrs.timeoutNs

/-- A feed was drained in the cycle at `nowNs`. -/
def recordFeed (store : WatchdogStore) (nowNs : Nat) : WatchdogStore :=
  { store with lastFeedNs := some nowNs }

/-- Time since the last feed, 0 before any feed. -/
def silentNs (store : WatchdogStore) (nowNs : Nat) : Nat :=
  match store.lastFeedNs with
  | some t => nowNs - t
  | none => 0

/-- The feed has been silent for longer than the timeout. -/
def expired (store : WatchdogStore) (nowNs : Nat) : Bool :=
  store.lastFeedNs.isSome && decide (store.timeoutNs < store.silentNs nowNs)

@[simp] theorem timeoutNs_recordFeed (store : WatchdogStore) (nowNs : Nat) :
    (store.recordFeed nowNs).timeoutNs = store.timeoutNs := rfl

@[simp] theorem lastFeedNs_recordFeed (store : WatchdogStore) (nowNs : Nat) :
    (store.recordFeed nowNs).lastFeedNs = some nowNs := rfl

@[simp] theorem recordFeed_recordFeed (store : WatchdogStore) (t nowNs : Nat) :
    (store.recordFeed t).recordFeed nowNs = store.recordFeed nowNs := rfl

@[simp] theorem expired_recordFeed (store : WatchdogStore) (nowNs : Nat) :
    (store.recordFeed nowNs).expired nowNs = false := by
  simp [expired, silentNs, recordFeed]

end WatchdogStore

/-! ## The gate -/

/-- Context injected into the handlers. -/
structure WatchdogCtx where
  store : WatchdogStore
  /-- `nowNs` of the cycle being dispatched. -/
  nowNs : Nat
  /-- Alarms of the current cycle. -/
  emitted : List Alarm
  deriving DecidableEq

protected def WatchdogCtx.default : WatchdogCtx :=
  { store := .default, nowNs := 0, emitted := [] }

/-- Events dispatched into the gate, in order, for each cycle. -/
inductive WatchdogEvent where
  /-- One drained heartbeat. -/
  | feed
  /-- End-of-cycle deadline check. -/
  | check

inductive WatchdogState where
  | idle
  | armed
  | tripped
  deriving DecidableEq

namespace WatchdogGate

def idle (context : WatchdogCtx) : WatchdogEvent → Outcome WatchdogState × WatchdogCtx
  | .feed => (.transition .armed, { context with
      store := context.store.recordFeed context.nowNs
      emitted := context.emitted ++ [.armed] })
  | .check => (.handled, context)

def armed (context : WatchdogCtx) : WatchdogEvent → Outcome WatchdogState × WatchdogCtx
  | .feed => (.handled, { context with store := context.store.recordFeed context.nowNs })
  | .check =>
    if context.store.expired context.nowNs then
      (.transition .tripped, { context with
        emitted := context.emitted ++ [.tripped (context.store.silentNs context.nowNs)] })
    else (.handled, context)

def tripped (context : WatchdogCtx) : WatchdogEvent → Outcome WatchdogState × WatchdogCtx
  | .feed => (.transition .armed, { context with
      store := context.store.recordFeed context.nowNs
      emitted := context.emitted ++ [.recovered] })
  | .check => (.handled, context)

/-- The handler of each state. -/
def handler : WatchdogState → WatchdogCtx → WatchdogEvent → Outcome WatchdogState × WatchdogCtx
  | .idle => idle
  | .armed => armed
  | .tripped => tripped

end WatchdogGate

/-! ## The machine -/

/-- The gate under way. -/
abbrev WatchdogMachine : Type := Machine WatchdogState WatchdogCtx

namespace WatchdogMachine

protected def default : WatchdogMachine := { state := .idle, ctx := .default }

/-- `handle_with_context` of the gate. -/
def handle (m : WatchdogMachine) (e : WatchdogEvent) : WatchdogMachine :=
  m.handleWithContext WatchdogGate.handler e

/-- One feed for each event, then the check; the buffered alarms are emitted. -/
def step (m : WatchdogMachine) (trigger : Trigger (Cycle Feed)) (effects : Effects Alarm) :
    WatchdogMachine × Effects Alarm :=
  match trigger.message? with
  | none => (m, effects)
  | some cycle =>
    let m := { m with ctx := { m.ctx with nowNs := cycle.nowNs } }
    let m := cycle.events.foldl (fun m _ => handle m .feed) m
    let m := handle m .check
    ({ m with ctx := { m.ctx with emitted := [] } }, m.ctx.emitted.foldl Effects.emit effects)

end WatchdogMachine

/-- The machine as `FsmBatchTask` drives it. -/
def watchdog : FsmSpec WatchdogMachine (Cycle Feed) Alarm :=
  { default := .default, step := WatchdogMachine.step }

/-! ## One step -/

namespace WatchdogMachine

/-- The alarm of the first feed of a cycle. -/
def feedAlarm : WatchdogState → List Alarm
  | .idle => [.armed]
  | .armed => []
  | .tripped => [.recovered]

theorem handle_feed (m : WatchdogMachine) : handle m .feed =
    { state := .armed
      ctx := { m.ctx with
        store := m.ctx.store.recordFeed m.ctx.nowNs
        emitted := m.ctx.emitted ++ feedAlarm m.state } } := by
  obtain ⟨state, ctx⟩ := m
  cases state with
  | idle | tripped => rfl
  | armed => simp [handle, Machine.handleWithContext, WatchdogGate.handler, WatchdogGate.armed,
      feedAlarm]

/-- Feeds after the first change nothing. -/
theorem foldl_feed (m : WatchdogMachine) (e : Feed) (es : List Feed) :
    (e :: es).foldl (fun m _ => handle m .feed) m = handle m .feed := by
  induction es with
  | nil => rfl
  | cons e' es ih =>
    have hagain : handle (handle m .feed) .feed = handle m .feed := by
      rw [handle_feed (handle m .feed), handle_feed m]
      simp [feedAlarm]
    simpa [hagain] using ih

theorem foldl_emit {Out : Type} (effects : Effects Out) (vs : List Out) :
    (vs.foldl Effects.emit effects).outbox = effects.outbox ++ vs := by
  induction vs generalizing effects with
  | nil => simp
  | cons v vs ih => simp [ih]

theorem handle_check (m : WatchdogMachine) : handle m .check =
    if m.state = .armed ∧ m.ctx.store.expired m.ctx.nowNs = true then
      { state := .tripped
        ctx := { m.ctx with
          emitted := m.ctx.emitted ++ [.tripped (m.ctx.store.silentNs m.ctx.nowNs)] } }
    else m := by
  obtain ⟨state, ctx⟩ := m
  cases state with
  | idle | tripped =>
    rw [if_neg (by simp)]
    rfl
  | armed =>
    by_cases hexp : ctx.store.expired ctx.nowNs = true
    · rw [if_pos ⟨rfl, hexp⟩]
      exact handle_transition (if_pos hexp)
    · rw [if_neg (fun h => hexp h.2)]
      exact handle_handled (if_neg hexp)

theorem step_tick (m : WatchdogMachine) (ns : Nat) : watchdog.runStepAll m (.tick ns) = (m, []) :=
  rfl

/-- A cycle dispatches its feeds and a check, and drains the buffer. -/
theorem step_cycle (m : WatchdogMachine) (c : Cycle Feed) :
    let m' := handle (c.events.foldl (fun m _ => handle m .feed)
      { m with ctx := { m.ctx with nowNs := c.nowNs } }) .check
    watchdog.runStepAll m (.message c) =
      ({ m' with ctx := { m'.ctx with emitted := [] } }, m'.ctx.emitted) := by
  intro m'
  have hemit := foldl_emit .default m'.ctx.emitted
  rw [Effects.outbox_default, List.nil_append] at hemit
  exact Prod.ext rfl hemit

theorem step_fed {m : WatchdogMachine} (hm : m.ctx.emitted = []) {c : Cycle Feed}
    (hc : c.events ≠ []) : watchdog.runStepAll m (.message c) =
      ({ state := .armed
         ctx := { store := m.ctx.store.recordFeed c.nowNs, nowNs := c.nowNs, emitted := [] } },
        feedAlarm m.state) := by
  obtain ⟨e, es, hes⟩ := List.exists_cons_of_ne_nil hc
  rw [step_cycle, hes, foldl_feed, handle_feed, handle_check, if_neg (by simp)]
  simp [hm]

theorem step_silent {m : WatchdogMachine} (hm : m.ctx.emitted = []) {c : Cycle Feed}
    (hc : c.events = []) : watchdog.runStepAll m (.message c) =
      if m.state = .armed ∧ m.ctx.store.expired c.nowNs = true then
        ({ state := .tripped, ctx := { m.ctx with nowNs := c.nowNs } },
          [.tripped (m.ctx.store.silentNs c.nowNs)])
      else ({ m with ctx := { m.ctx with nowNs := c.nowNs } }, []) := by
  rw [step_cycle, hc, List.foldl_nil, handle_check]
  by_cases h : m.state = .armed ∧ m.ctx.store.expired c.nowNs = true
  · rw [if_pos h, if_pos h]
    simp [hm]
  · rw [if_neg h, if_neg h]
    simp [hm]

end WatchdogMachine

end Msrs
