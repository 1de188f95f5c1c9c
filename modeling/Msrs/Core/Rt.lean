import Msrs.Lib.BestEffort

/-!
# Real-time configuration

`rt.rs`: `RtConfig::apply` pins the current thread to the listed cores and then sets its scheduler
policy. It is a program over the calls it makes on `core_affinity` and `thread_priority`, which
may answer in any way.

`apply_yields` reads it off the attempts it makes, and `apply_best_effort` says what these are
worth: every attempt is made whatever came of the ones before, and the first failure is kept.
-/

namespace Msrs

open Interleave

/-- Thread scheduler policy. -/
inductive SchedPolicy where
  /-- Default time-sharing scheduler. -/
  | normal
  /-- `SCHED_FIFO` at the given priority. -/
  | fifo (prio : UInt8)
  deriving DecidableEq

/-- Real-time configuration applied to the current thread. -/
structure RtConfig where
  scheduler : SchedPolicy
  /-- Core ids to pin this thread to. Empty means no pinning. -/
  affinity : List Nat
  deriving DecidableEq

/-- What the crate is compiled for. -/
inductive TargetOs where
  | linux
  | other
  deriving DecidableEq

structure CoreId where
  id : Nat
  deriving DecidableEq

/-! ## Calls -/

/-- A call on the libraries; each is about the current thread. -/
inductive RtOp where
  /-- `core_affinity::get_core_ids()` -/
  | getCoreIds
  /-- `core_affinity::set_for_current(core)` -/
  | setForCurrent (core : CoreId)
  /-- `ThreadPriorityValue::try_from(prio)` -/
  | priorityValue (prio : UInt8)
  /-- `set_thread_priority_and_policy` at this priority, with `SCHED_FIFO` -/
  | setThreadPriority (prio : UInt8)

/-- What a call answers. Errors are as they are formatted: `try_from`'s with `{}`, the other's
with `{:?}`. -/
@[reducible] def RtOp.Res : RtOp → Type
  | .getCoreIds => Option (List CoreId)
  | .setForCurrent _ => Bool
  | .priorityValue _ => Except String Unit
  | .setThreadPriority _ => Except String Unit

/-- Code over these calls. -/
abbrev Rt : Type → Type := Prog RtOp RtOp.Res

/-- A call with its answer. -/
abbrev RtCall : Type := Call RtOp RtOp.Res

/-! ## `RtConfig` -/

/-- `first_err.get_or_insert(msg)` -/
def getOrInsert (firstErr : Option String) (msg : String) : Option String :=
  firstErr.or (some msg)

/-- Set `SCHED_FIFO`, on Linux. -/
def setFifo (target : TargetOs) (prio : UInt8) : Rt (Except String Unit) :=
  match target with
  | .linux => do
    match ← Prog.perform (RtOp.priorityValue prio) with
    | .error e => return .error ("invalid priority: " ++ e)
    | .ok () =>
      match ← Prog.perform (RtOp.setThreadPriority prio) with
      | .error e => return .error ("set SCHED_FIFO failed: " ++ e)
      | .ok () => return .ok ()
  | .other => return .error "SCHED_FIFO only supported on Linux"

namespace RtConfig

/-- Non-real-time default: normal scheduling, no pinning. -/
def normal : RtConfig := { scheduler := .normal, affinity := [] }

/-- One turn of the loop over the listed cores. -/
def pin (ids : List CoreId) (firstErr : Option String) (want : Nat) : Rt (Option String) :=
  match ids.find? (fun c => c.id == want) with
  | some core => do
    let pinned ← Prog.perform (RtOp.setForCurrent core)
    return if pinned then firstErr
      else getOrInsert firstErr ("failed to pin to core " ++ toString want)
  | none => return getOrInsert firstErr ("core " ++ toString want ++ " not available")

/-- Apply affinity. -/
def applyAffinity (affinity : List Nat) (firstErr : Option String) : Rt (Option String) :=
  if affinity.isEmpty then return firstErr
  else do
    match ← Prog.perform RtOp.getCoreIds with
    | some ids => affinity.foldlM (pin ids) firstErr
    | none => return getOrInsert firstErr "core ids unavailable"

/-- Apply the scheduler policy. -/
def applyScheduler (target : TargetOs) (scheduler : SchedPolicy) (firstErr : Option String) :
    Rt (Option String) :=
  match scheduler with
  | .normal => return firstErr
  | .fifo prio => do
    match ← setFifo target prio with
    | .error e => return getOrInsert firstErr e
    | .ok () => return firstErr

/-- Apply affinity and then scheduler policy to the current thread. -/
def apply (target : TargetOs) (cfg : RtConfig) : Rt (Except String Unit) := do
  let firstErr ← applyAffinity cfg.affinity none
  let firstErr ← applyScheduler target cfg.scheduler firstErr
  match firstErr with
  | some e => return .error e
  | none => return .ok ()

end RtConfig

/-! ## Attempts -/

/-- One thing `apply` tries, with what came of it. -/
inductive Attempt where
  | coreIds (ids : Option (List CoreId))
  /-- A listed core that is not among the ids; nothing is called. -/
  | missing (want : Nat)
  | pin (core : CoreId) (pinned : Bool)
  | badPriority (prio : UInt8) (e : String)
  | fifo (prio : UInt8) (r : Except String Unit)
  /-- `SCHED_FIFO` off Linux; nothing is called. -/
  | unsupported

/-- The calls of an attempt. -/
def Attempt.calls : Attempt → List RtCall
  | .coreIds ids => [⟨.getCoreIds, ids⟩]
  | .missing _ => []
  | .pin core pinned => [⟨.setForCurrent core, pinned⟩]
  | .badPriority prio e => [⟨.priorityValue prio, .error e⟩]
  | .fifo prio r => [⟨.priorityValue prio, .ok ()⟩, ⟨.setThreadPriority prio, r⟩]
  | .unsupported => []

/-- The message of an attempt that failed. -/
def Attempt.failure : Attempt → Option String
  | .coreIds (some _) => none
  | .coreIds none => some "core ids unavailable"
  | .missing want => some ("core " ++ toString want ++ " not available")
  | .pin _ true => none
  | .pin core false => some ("failed to pin to core " ++ toString core.id)
  | .badPriority _ e => some ("invalid priority: " ++ e)
  | .fifo _ (.ok ()) => none
  | .fifo _ (.error e) => some ("set SCHED_FIFO failed: " ++ e)
  | .unsupported => some "SCHED_FIFO only supported on Linux"

/-- A listed core is pinned to if it is among the ids, and missing otherwise. -/
inductive TriesCore (ids : List CoreId) (want : Nat) : Attempt → Prop
  | missing (h : ∀ core ∈ ids, core.id ≠ want) : TriesCore ids want (.missing want)
  | pin (core : CoreId) (hmem : core ∈ ids) (hid : core.id = want) (pinned : Bool) :
      TriesCore ids want (.pin core pinned)

/-- The attempts for a list of cores: the ids, and then each listed core in order. -/
inductive TriesCores : List Nat → List Attempt → Prop
  | nothing : TriesCores [] []
  | unavailable {affinity : List Nat} (h : affinity ≠ []) :
      TriesCores affinity [.coreIds none]
  | cores {affinity : List Nat} (h : affinity ≠ []) (ids : List CoreId) {ts : List Attempt} :
      List.Forall₂ (TriesCore ids) affinity ts → TriesCores affinity (.coreIds (some ids) :: ts)

/-- The attempts for a scheduler policy. -/
inductive TriesScheduler : TargetOs → SchedPolicy → List Attempt → Prop
  | normal (target : TargetOs) : TriesScheduler target .normal []
  | badPriority (prio : UInt8) (e : String) :
      TriesScheduler .linux (.fifo prio) [.badPriority prio e]
  | fifo (prio : UInt8) (r : Except String Unit) :
      TriesScheduler .linux (.fifo prio) [.fifo prio r]
  | unsupported (prio : UInt8) : TriesScheduler .other (.fifo prio) [.unsupported]

/-- The attempts of `apply`: for the cores, and then for the scheduler. -/
def RtConfig.Tries (target : TargetOs) (cfg : RtConfig) (attempts : List Attempt) : Prop :=
  ∃ cores sched, attempts = cores ++ sched ∧ TriesCores cfg.affinity cores ∧
    TriesScheduler target cfg.scheduler sched

/-! ## Each part read off its attempts -/

namespace RtConfig

/-- The accumulator after one attempt more. -/
def keepFirst (firstErr : Option String) (a : Attempt) : Option String := firstErr.or a.failure

theorem pin_yields (ids : List CoreId) (firstErr : Option String) (want : Nat)
    (cs : List RtCall) (firstErr' : Option String) :
    (pin ids firstErr want).Yields cs firstErr' ↔
      ∃ a, TriesCore ids want a ∧ cs = a.calls ∧ firstErr' = keepFirst firstErr a := by
  unfold pin
  cases hfind : ids.find? (fun c => c.id == want) with
  | none =>
    have hmissing : ∀ core ∈ ids, core.id ≠ want := by simpa using hfind
    simp only [Prog.pure_eq, Prog.yields_ret]
    refine ⟨fun h => ?_, fun h => ?_⟩
    · obtain ⟨rfl, rfl⟩ := h
      exact ⟨_, .missing hmissing, rfl, rfl⟩
    · obtain ⟨a, ha, rfl, rfl⟩ := h
      cases ha with
      | missing _ => exact ⟨rfl, rfl⟩
      | pin core hmem hid pinned => exact absurd hid (hmissing core hmem)
  | some core =>
    have hmem := List.mem_of_find?_eq_some hfind
    have hid : core.id = want := by simpa using List.find?_some hfind
    subst hid
    simp only [Prog.perform_bind, Prog.yields_call, Prog.pure_eq, Prog.yields_ret]
    refine ⟨fun h => ?_, fun h => ?_⟩
    · obtain ⟨pinned, ds, rfl, rfl, rfl⟩ := h
      refine ⟨_, .pin core hmem rfl pinned, rfl, ?_⟩
      cases pinned with
      | false => rfl
      | true => simp [keepFirst, Attempt.failure]
    · obtain ⟨a, ha, rfl, rfl⟩ := h
      cases ha with
      | missing h => exact absurd rfl (h core hmem)
      | pin core' _ hid pinned =>
        obtain rfl : core' = core := congrArg CoreId.mk hid
        refine ⟨pinned, [], rfl, rfl, ?_⟩
        cases pinned with
        | false => rfl
        | true => simp [keepFirst, Attempt.failure]

theorem applyAffinity_yields (affinity : List Nat) (firstErr : Option String)
    (cs : List RtCall) (firstErr' : Option String) :
    (applyAffinity affinity firstErr).Yields cs firstErr' ↔
      ∃ ts, TriesCores affinity ts ∧ cs = ts.flatMap Attempt.calls ∧
        firstErr' = ts.foldl keepFirst firstErr := by
  cases affinity with
  | nil =>
    refine ⟨fun h => ?_, fun h => ?_⟩
    · obtain ⟨rfl, rfl⟩ := (Prog.yields_ret _ _ _).mp h
      exact ⟨[], .nothing, rfl, rfl⟩
    · obtain ⟨ts, hts, rfl, rfl⟩ := h
      cases hts with
      | nothing => exact (Prog.yields_ret _ _ _).mpr ⟨rfl, rfl⟩
      | unavailable h => exact absurd rfl h
      | cores h => exact absurd rfl h
  | cons want affinity =>
    have hne : want :: affinity ≠ [] := List.cons_ne_nil _ _
    have hloop (ids : List CoreId) (cs : List RtCall) :=
      Prog.yields_foldlM (pin_yields ids) (want :: affinity) firstErr cs firstErr'
    have hids (ids : List CoreId) :
        keepFirst firstErr (.coreIds (some ids)) = firstErr := Option.or_none
    simp only [applyAffinity, List.isEmpty_cons, Bool.false_eq_true, if_false, Prog.perform_bind,
      Prog.yields_call]
    refine ⟨fun h => ?_, fun h => ?_⟩
    · obtain ⟨ids, ds, rfl, h⟩ := h
      cases ids with
      | none =>
        obtain ⟨rfl, rfl⟩ := (Prog.yields_ret _ _ _).mp h
        exact ⟨_, .unavailable hne, rfl, rfl⟩
      | some ids =>
        obtain ⟨ts, hts, rfl, rfl⟩ := (hloop ids ds).mp h
        refine ⟨_, .cores hne ids hts, rfl, ?_⟩
        rw [List.foldl_cons, hids]
    · obtain ⟨ts, hts, rfl, rfl⟩ := h
      cases hts with
      | unavailable _ => exact ⟨none, [], rfl, (Prog.yields_ret _ _ _).mpr ⟨rfl, rfl⟩⟩
      | cores _ ids hts =>
        refine ⟨some ids, _, rfl, (hloop ids _).mpr ⟨_, hts, rfl, ?_⟩⟩
        rw [List.foldl_cons, hids]

theorem setFifo_yields (target : TargetOs) (prio : UInt8) (cs : List RtCall)
    (r : Except String Unit) :
    (setFifo target prio).Yields cs r ↔
      ∃ a, TriesScheduler target (.fifo prio) [a] ∧ cs = a.calls ∧
        r = result Attempt.failure [a] := by
  cases target with
  | other =>
    refine ⟨fun h => ?_, fun h => ?_⟩
    · obtain ⟨rfl, rfl⟩ := (Prog.yields_ret _ _ _).mp h
      exact ⟨_, .unsupported prio, rfl, rfl⟩
    · obtain ⟨a, ha, rfl, rfl⟩ := h
      cases ha
      exact (Prog.yields_ret _ _ _).mpr ⟨rfl, rfl⟩
  | linux =>
    simp only [setFifo, Prog.perform_bind, Prog.yields_call]
    refine ⟨fun h => ?_, fun h => ?_⟩
    · obtain ⟨r₁, ds, rfl, h⟩ := h
      cases r₁ with
      | error e =>
        obtain ⟨rfl, rfl⟩ := (Prog.yields_ret _ _ _).mp h
        exact ⟨_, .badPriority prio e, rfl, rfl⟩
      | ok _ =>
        obtain ⟨r₂, ds, rfl, hset⟩ := (Prog.yields_call _ _ _ _).mp h
        cases r₂ with
        | error e =>
          obtain ⟨rfl, rfl⟩ := (Prog.yields_ret _ _ _).mp hset
          exact ⟨_, .fifo prio (.error e), rfl, rfl⟩
        | ok _ =>
          obtain ⟨rfl, rfl⟩ := (Prog.yields_ret _ _ _).mp hset
          exact ⟨_, .fifo prio (.ok ()), rfl, rfl⟩
    · obtain ⟨a, ha, rfl, rfl⟩ := h
      cases ha with
      | badPriority _ e =>
        exact ⟨.error e, [], rfl, (Prog.yields_ret _ _ _).mpr ⟨rfl, rfl⟩⟩
      | fifo _ r =>
        refine ⟨.ok (), _, rfl, (Prog.yields_call _ _ _ _).mpr ⟨r, [], rfl, ?_⟩⟩
        cases r with
        | error e => exact (Prog.yields_ret _ _ _).mpr ⟨rfl, rfl⟩
        | ok _ => exact (Prog.yields_ret _ _ _).mpr ⟨rfl, rfl⟩

theorem applyScheduler_yields (target : TargetOs) (scheduler : SchedPolicy)
    (firstErr : Option String) (cs : List RtCall) (firstErr' : Option String) :
    (applyScheduler target scheduler firstErr).Yields cs firstErr' ↔
      ∃ ts, TriesScheduler target scheduler ts ∧ cs = ts.flatMap Attempt.calls ∧
        firstErr' = ts.foldl keepFirst firstErr := by
  cases scheduler with
  | normal =>
    refine ⟨fun h => ?_, fun h => ?_⟩
    · obtain ⟨rfl, rfl⟩ := (Prog.yields_ret _ _ _).mp h
      exact ⟨[], .normal target, rfl, rfl⟩
    · obtain ⟨ts, hts, rfl, rfl⟩ := h
      cases hts
      exact (Prog.yields_ret _ _ _).mpr ⟨rfl, rfl⟩
  | fifo prio =>
    have hkeep (a : Attempt) (firstErr' : Option String) (cs : List RtCall) :
        (match result Attempt.failure [a] with
          | .error e => (return getOrInsert firstErr e : Rt (Option String))
          | .ok () => return firstErr).Yields cs firstErr' ↔
          cs = [] ∧ firstErr' = keepFirst firstErr a := by
      unfold result keepFirst
      cases hfail : a.failure <;> simp [hfail, getOrInsert]
    have hone (ts : List Attempt) (hts : TriesScheduler target (.fifo prio) ts) :
        ∃ a, ts = [a] := by
      cases hts <;> exact ⟨_, rfl⟩
    simp only [applyScheduler, Prog.yields_bind, setFifo_yields]
    refine ⟨fun h => ?_, fun h => ?_⟩
    · obtain ⟨r, cs₁, cs₂, rfl, ⟨a, ha, rfl, rfl⟩, h⟩ := h
      obtain ⟨rfl, rfl⟩ := (hkeep a _ _).mp h
      exact ⟨[a], ha, by simp, rfl⟩
    · obtain ⟨ts, hts, rfl, rfl⟩ := h
      obtain ⟨a, rfl⟩ := hone ts hts
      exact ⟨_, _, [], by simp, ⟨a, hts, rfl, rfl⟩, (hkeep a _ _).mpr ⟨rfl, rfl⟩⟩

/-- `apply` makes its attempts one after the other and comes to their result, however the calls
are answered. -/
theorem apply_yields (target : TargetOs) (cfg : RtConfig) (cs : List RtCall)
    (r : Except String Unit) :
    (cfg.apply target).Yields cs r ↔ ∃ attempts, cfg.Tries target attempts ∧
      cs = attempts.flatMap Attempt.calls ∧ r = result Attempt.failure attempts := by
  have hlast (cores sched : List Attempt) (cs : List RtCall) :
      (match sched.foldl keepFirst (cores.foldl keepFirst none) with
        | some e => (return .error e : Rt (Except String Unit))
        | none => return .ok ()).Yields cs r ↔
        cs = [] ∧ r = result Attempt.failure (cores ++ sched) := by
    have hfirst : sched.foldl keepFirst (cores.foldl keepFirst none) =
        (cores ++ sched).findSome? Attempt.failure := by
      rw [← List.foldl_append]
      exact (foldl_or Attempt.failure none _).trans Option.none_or
    rw [hfirst, result]
    cases (cores ++ sched).findSome? Attempt.failure <;> simp
  simp only [apply, Prog.yields_bind, applyAffinity_yields, applyScheduler_yields]
  refine ⟨fun h => ?_, fun h => ?_⟩
  · obtain ⟨_, _, _, rfl, ⟨cores, hcores, rfl, rfl⟩, _, _, _, rfl, hscheduler, h⟩ := h
    obtain ⟨sched, hsched, rfl, rfl⟩ := hscheduler
    obtain ⟨rfl, hr⟩ := (hlast cores sched _).mp h
    refine ⟨cores ++ sched, ⟨cores, sched, rfl, hcores, hsched⟩, ?_, hr⟩
    rw [List.append_nil, List.flatMap_append]
  · obtain ⟨_, ⟨cores, sched, rfl, hcores, hsched⟩, rfl, hr⟩ := h
    refine ⟨_, _, _, List.flatMap_append, ⟨cores, hcores, rfl, rfl⟩, _, _, [],
      (List.append_nil _).symm, ⟨sched, hsched, rfl, rfl⟩, (hlast cores sched _).mpr ⟨rfl, hr⟩⟩

/-- **Best effort.** For every configuration, `apply` goes through exactly the calls of a list of
attempts that has, in this order, the core ids, every listed core (a pin if it is among the ids),
and the scheduler policy. All of them are made whatever came of the ones before; the result is Ok
if and only if none failed, and an error if and only if it is the message of the first that
did. -/
theorem apply_best_effort (target : TargetOs) (cfg : RtConfig) (cs : List RtCall)
    (r : Except String Unit) :
    (cfg.apply target).Yields cs r ↔ ∃ attempts, cfg.Tries target attempts ∧
      cs = attempts.flatMap Attempt.calls ∧
      (r = .ok () ↔ ∀ a ∈ attempts, a.failure = none) ∧
      ∀ msg, r = .error msg ↔ ∃ pre a post, attempts = pre ++ a :: post ∧
        a.failure = some msg ∧ ∀ a' ∈ pre, a'.failure = none := by
  rw [apply_yields]
  refine exists_congr fun attempts => and_congr_right fun _ => and_congr_right fun _ => ?_
  refine ⟨fun hr => ?_, fun hr => ?_⟩
  · subst hr
    exact ⟨result_eq_ok, fun msg => result_eq_error⟩
  · obtain ⟨hok, herror⟩ := hr
    cases r with
    | ok _ => exact (result_eq_ok.mpr (hok.mp rfl)).symm
    | error msg => exact (result_eq_error.mpr ((herror msg).mp rfl)).symm

example (target : TargetOs) : normal.apply target = .ret (.ok ()) := rfl

end RtConfig

end Msrs
