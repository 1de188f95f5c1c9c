import Msrs.Transport.Tasks
import Msrs.Lib.Progress
import Mathlib.Logic.Function.Basic

/-!
# The copper runtime

What the tasks rely on: in every iteration the tasks run once each, in DAG order, on the slots
of one copperlist, and the copperlist is logged at the end under the next id. The copperlists
come from a ring that is never reset, so a task finds in its slots what an earlier iteration
left there. Which place of the ring an iteration gets is the parameter `pick`.

An error of a task is recorded and the iteration goes on.

One stage of the loop is one task. The memory between stages is `Runtime`.
-/

namespace Msrs

open Interleave

variable {T U σ C : Type}

/-- A copperlist of the log: the id, and the slots of all tasks. -/
structure CopperList (C : Type) where
  id : UInt64
  msgs : C
  deriving DecidableEq

/-- The tasks of a service in DAG order. `σ` is what they keep between iterations and `C` the
slots of a copperlist. -/
structure Dag (T U σ C : Type) where
  tasks : Nat
  tasks_pos : 0 < tasks
  process : Nat → σ → C → Io T U (σ × C × CuResult)

/-- The runtime between two stages. -/
structure Runtime (σ C : Type) where
  state : σ
  ring : Nat → C
  /-- The copperlist in work. -/
  msgs : C
  log : List (CopperList C)
  nextId : UInt64
  /-- What every `process` so far returned. -/
  results : List CuResult

namespace Runtime

/-- Before the first iteration. -/
def start (state : σ) (ring : Nat → C) (id : UInt64) : Runtime σ C :=
  { state, ring, msgs := ring 0, log := [], nextId := id, results := [] }

/-- A task has run. -/
def store (rt : Runtime σ C) (out : σ × C × CuResult) : Runtime σ C :=
  { rt with state := out.1, msgs := out.2.1, results := rt.results ++ [out.2.2] }

/-- An iteration ends: its copperlist is logged and goes back to its place. -/
def finish (rt : Runtime σ C) (place : Nat) : Runtime σ C :=
  { rt with
    ring := Function.update rt.ring place rt.msgs
    log := rt.log ++ [{ id := rt.nextId, msgs := rt.msgs }]
    nextId := rt.nextId + 1 }

@[simp] theorem state_store (rt : Runtime σ C) (out : σ × C × CuResult) :
    (rt.store out).state = out.1 := rfl
@[simp] theorem msgs_store (rt : Runtime σ C) (out : σ × C × CuResult) :
    (rt.store out).msgs = out.2.1 := rfl
@[simp] theorem log_store (rt : Runtime σ C) (out : σ × C × CuResult) :
    (rt.store out).log = rt.log := rfl
@[simp] theorem state_finish (rt : Runtime σ C) (place : Nat) :
    (rt.finish place).state = rt.state := rfl
@[simp] theorem msgs_finish (rt : Runtime σ C) (place : Nat) :
    (rt.finish place).msgs = rt.msgs := rfl
@[simp] theorem log_finish (rt : Runtime σ C) (place : Nat) :
    (rt.finish place).log = rt.log ++ [{ id := rt.nextId, msgs := rt.msgs }] := rfl

end Runtime

namespace Dag

variable (D : Dag T U σ C)

/-- The slots stage `k` works on: the first task of an iteration finds an old copperlist. -/
def slots (pick : Nat → Nat) (k : Nat) (rt : Runtime σ C) : C :=
  if k % D.tasks = 0 then rt.ring (pick (k / D.tasks)) else rt.msgs

/-- Stage `k`: one task, and the end of the iteration after the last. -/
def stage (pick : Nat → Nat) (k : Nat) (rt : Runtime σ C) : Io T U (Runtime σ C) := do
  let out ← D.process (k % D.tasks) rt.state (D.slots pick k rt)
  return if k % D.tasks + 1 = D.tasks then (rt.store out).finish (pick (k / D.tasks))
    else rt.store out

end Dag

/-- A moment of a run of the runtime against a transport. -/
abbrev Moment (T U σ C : Type) : Type :=
  Shared.Config (Op T U) Op.Res (Act T U) Bool (Bridge T U) (Runtime σ C)

/-- The choices of the scheduler: an action of the other side, or a move of the runtime. -/
abbrev Schedule (T U : Type) : Type := List (Shared.Choice (Act T U))

/-- Everything that has happened at the bridge. -/
def Moment.events (c : Moment T U σ C) : List (Event T U) := c.hist.map Prod.snd

namespace Dag

variable (D : Dag T U σ C)

/-- Where a schedule leads from the start of the runtime. -/
def run (pick : Nat → Nat) (rt : Runtime σ C) (w : Bridge T U) (sched : Schedule T U) :
    Moment T U σ C :=
  (bridge T U).run (D.stage pick) (Shared.start (D.stage pick) rt w) sched

variable {D} {pick : Nat → Nat} {k : Nat} {rt rt' : Runtime σ C} {cs : List (IoCall T U)}

theorem yields_stage (h : (D.stage pick k rt).Yields cs rt') :
    ∃ out, (D.process (k % D.tasks) rt.state (D.slots pick k rt)).Yields cs out ∧
      rt' = if k % D.tasks + 1 = D.tasks then (rt.store out).finish (pick (k / D.tasks))
        else rt.store out := by
  exact (Prog.yields_bind_ret _ _ _ _).mp h

theorem follows_stage {q : Io T U (Runtime σ C)} (h : (D.stage pick k rt).Follows cs q) :
    ∃ p, (D.process (k % D.tasks) rt.state (D.slots pick k rt)).Follows cs p := by
  rcases Prog.follows_bind h with ⟨p, hp, -⟩ | ⟨out, cs₁, cs₂, rfl, h₁, h₂⟩
  · exact ⟨p, hp⟩
  · obtain ⟨rfl, -⟩ := (Prog.follows_ret _ _ _).mp h₂
    rw [List.append_nil]
    exact ⟨.ret out, h₁⟩

theorem legal_run (D : Dag T U σ C) (pick : Nat → Nat) (rt : Runtime σ C) (w : Bridge T U)
    (sched : Schedule T U) :
    (bridge T U).Legal w (D.run pick rt w sched).events (D.run pick rt w sched).world :=
  Shared.legal_hist (bridge T U) (D.stage pick) rt w sched

theorem noneRefused_run (D : Dag T U σ C) (pick : Nat → Nat) (rt : Runtime σ C) (w : Bridge T U)
    (sched : Schedule T U) (hrx : (D.run pick rt w sched).world.outbound.rx = true) :
    NoneRefused (D.run pick rt w sched).calls :=
  noneRefused_iff.mpr (delivered_eq_sent (D.legal_run pick rt w sched) hrx)

/-- Wherever the history is cut, the run was there, and both parts are legal from their bridges. -/
theorem exists_moment (D : Dag T U σ C) (pick : Nat → Nat) (rt : Runtime σ C) (w : Bridge T U)
    (sched : Schedule T U) {pre post : List (Nat × Event T U)}
    (h : (D.run pick rt w sched).hist = pre ++ post) :
    ∃ n, (D.run pick rt w (sched.take n)).hist = pre ∧
      (bridge T U).Legal w (pre.map Prod.snd) (D.run pick rt w (sched.take n)).world ∧
      (bridge T U).Legal (D.run pick rt w (sched.take n)).world (post.map Prod.snd)
        (D.run pick rt w sched).world :=
  Shared.exists_legal_moment (bridge T U) (D.stage pick) rt w sched h

theorem accepted_run (D : Dag T U σ C) (pick : Nat → Nat) (rt : Runtime σ C) {w : Bridge T U}
    (hw : w.inbound.queue = []) (sched : Schedule T U) :
    let m := D.run pick rt w sched
    accepted m.events = received m.calls ++ m.world.inbound.queue := by
  have hlaw := queue_law (D.legal_run pick rt w sched)
  rwa [hw, List.nil_append] at hlaw

/-! ## Ids and results -/

theorem succ_div (k : Nat) : (k + 1) / D.tasks =
    k / D.tasks + if k % D.tasks + 1 = D.tasks then 1 else 0 := by
  have hsplit : k + 1 = D.tasks * (k / D.tasks) + (k % D.tasks + 1) := by
    rw [← Nat.add_assoc, Nat.div_add_mod]
  rw [hsplit, Nat.mul_add_div D.tasks_pos]
  congr 1
  have hlt := Nat.mod_lt k D.tasks_pos
  by_cases hlast : k % D.tasks + 1 = D.tasks
  · rw [if_pos hlast, hlast, Nat.div_self D.tasks_pos]
  · rw [if_neg hlast, Nat.div_eq_of_lt (by omega)]

/-- The ids of `n` iterations from the first id on. -/
def ids (id : UInt64) (n : Nat) : List UInt64 :=
  (List.range n).map fun i => id + UInt64.ofNat i

/-- What the log says after `k` stages, whatever the tasks do. -/
structure Logged (D : Dag T U σ C) (id : UInt64) (k : Nat) (rt : Runtime σ C) : Prop where
  length_log : rt.log.length = k / D.tasks
  map_id : rt.log.map CopperList.id = ids id (k / D.tasks)
  nextId : rt.nextId = id + UInt64.ofNat (k / D.tasks)
  length_results : rt.results.length = k

theorem Logged.step {id : UInt64} (hlog : Logged D id k rt)
    (h : (D.stage pick k rt).Yields cs rt') : Logged D id (k + 1) rt' := by
  obtain ⟨out, -, rfl⟩ := yields_stage h
  have hres : (rt.store out).results.length = k + 1 := by
    simp [Runtime.store, hlog.length_results]
  by_cases hlast : k % D.tasks + 1 = D.tasks
  · rw [if_pos hlast]
    have hdiv : (k + 1) / D.tasks = k / D.tasks + 1 := by rw [succ_div, if_pos hlast]
    have hnext : (rt.store out).nextId = id + UInt64.ofNat (k / D.tasks) := hlog.nextId
    refine ⟨?_, ?_, ?_, hres⟩
    · simp [Runtime.finish, Runtime.store, hlog.length_log, hdiv]
    · rw [hdiv, ids, List.range_succ, List.map_append, ← ids, ← hlog.map_id]
      simp [Runtime.finish, Runtime.store, hlog.nextId]
    · rw [hdiv, UInt64.ofNat_add, ← UInt64.add_assoc, ← hnext]
      rfl
  · rw [if_neg hlast]
    have hdiv : (k + 1) / D.tasks = k / D.tasks := by rw [succ_div, if_neg hlast, Nat.add_zero]
    refine ⟨?_, ?_, ?_, hres⟩
    · rw [hdiv]; exact hlog.length_log
    · rw [hdiv]; exact hlog.map_id
    · rw [hdiv]; exact hlog.nextId

theorem logged_run (D : Dag T U σ C) (pick : Nat → Nat) (state : σ) (ring : Nat → C)
    (id : UInt64) (w : Bridge T U) (sched : Schedule T U) :
    Logged D id (D.run pick (.start state ring id) w sched).stage
      (D.run pick (.start state ring id) w sched).mem := by
  obtain ⟨cs, ds, hlog, -⟩ := Shared.run_rule_calls (bridge T U) (D.stage pick)
    (J := fun k rt _ => Logged D id k rt) (s := .start state ring id) (w := w)
    ⟨by simp [Runtime.start], by simp [Runtime.start, ids], by simp [Runtime.start], rfl⟩
    (fun k rt cs ds rt' hlog h => hlog.step h) sched
  exact hlog

theorem run_append (D : Dag T U σ C) (pick : Nat → Nat) (rt : Runtime σ C) (w : Bridge T U)
    (sched later : Schedule T U) : D.run pick rt w (sched ++ later) =
      (bridge T U).run (D.stage pick) (D.run pick rt w sched) later :=
  Shared.run_append _ sched later

theorem events_append (D : Dag T U σ C) (pick : Nat → Nat) (rt : Runtime σ C) (w : Bridge T U)
    (sched later : Schedule T U) :
    ∃ ls, (D.run pick rt w (sched ++ later)).events = (D.run pick rt w sched).events ++ ls ∧
      (bridge T U).Legal (D.run pick rt w sched).world ls
        (D.run pick rt w (sched ++ later)).world := by
  rw [run_append]
  obtain ⟨h, hhist, hlegal⟩ :=
    Shared.run_extends (bridge T U) (D.stage pick) (D.run pick rt w sched) later
  refine ⟨h.map Prod.snd, ?_, hlegal⟩
  rw [Moment.events, hhist, List.map_append]
  rfl

theorem log_isPrefix (D : Dag T U σ C) (pick : Nat → Nat) (rt : Runtime σ C) (w : Bridge T U)
    (sched later : Schedule T U) :
    (D.run pick rt w sched).mem.log <+: (D.run pick rt w (sched ++ later)).mem.log := by
  obtain ⟨cs, ds, -, hfol, -⟩ := Shared.run_rule_calls (bridge T U) (D.stage pick)
    (J := fun _ _ _ => True) (s := rt) (w := w) trivial (fun _ _ _ _ _ _ _ => trivial) sched
  change (D.stage pick (D.run pick rt w sched).stage (D.run pick rt w sched).mem).Follows ds
    (D.run pick rt w sched).cur at hfol
  rw [run_append]
  generalize D.run pick rt w sched = c at hfol
  have hgrow {k : Nat} {rt rt' : Runtime σ C} {cs : List (IoCall T U)}
      (h : (D.stage pick k rt).Yields cs rt') : rt.log <+: rt'.log := by
    obtain ⟨out, -, rfl⟩ := yields_stage h
    by_cases hlast : k % D.tasks + 1 = D.tasks
    · rw [if_pos hlast]
      exact List.prefix_append _ _
    · simp only [if_neg hlast, Runtime.log_store, List.prefix_rfl]
  rcases Shared.run_rule_from (bridge T U) (D.stage pick)
      (J := fun _ rt' _ => c.mem.log <+: rt'.log) c
      (fun ls w' rt' hran => hgrow ((Prog.follows_append _ _ _ _).mpr ⟨_, hfol, hran.yields⟩))
      (fun k rt' w' ls w'' rt'' hJ hran => hJ.trans (hgrow hran.yields)) later with
    ⟨-, hmem, -⟩ | ⟨w₀, ls, hJ, -⟩
  · simp only [hmem, List.prefix_rfl]
  · exact hJ

end Dag

end Msrs
