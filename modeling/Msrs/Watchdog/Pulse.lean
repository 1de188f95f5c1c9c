import Msrs.Watchdog.Spec
import Msrs.Runtime.Shutdown
import Msrs.Runtime.Timed

/-!
# The transport of the watchdog service

`main.rs` of the watchdog: `Pulse` feeds on a schedule from a thread of its own and forwards
alarms to `main`, which iterates the runtime, drops the application, waits for the transport and
then collects the alarms.

The three routines are read off their calls: what a thread has called between two rounds
(`driver_inl`, `main_inl`), at its end (`driver_inr`, `main_inr`) and at any moment
(`driver_rounds`, `main_rounds`).
-/

namespace Msrs

open Interleave Fifo

/-- The threads of the service: the driver runs `Pulse::run`, which spawns the feeder. -/
inductive Party where
  | driver
  | feeder
  | main
  deriving DecidableEq

/-- What a thread keeps between two rounds of its loop. -/
@[reducible] def Party.Kept : Party → Type
  | .driver => Unit
  | .feeder => Empty
  | .main => List Alarm

/-- What a thread ends with. -/
@[reducible] def Party.Result : Party → Type
  | .driver => Except String Unit
  | .feeder => Unit
  | .main => List Alarm

/-- Code of one of these threads. -/
abbrev PulseCode : Type → Type := Code Party Party.Result Feed Alarm Alarm

/-- A call of one of these threads. -/
abbrev PulseCall : Type := ThreadCall Party Party.Result Feed Alarm Alarm

namespace Pulse

/-- The closure `burst`: a failed send ends this burst. -/
def burst : List UInt32 → PulseCode Unit
  | [] => return ()
  | n :: seq => do
    match ← (Code.send ⟨n⟩ : PulseCode _) with
    | .error _ => return ()
    | .ok () => do
      Code.sleep 10
      burst seq

/-- The thread `run` spawns. -/
def feeder : PulseCode Unit := do
  burst [0, 1, 2, 3, 4]
  Code.sleep 150
  burst [5, 6, 7]

/-- Spawn the feeder, forward alarms until the DAG is gone, and wait for the feeder, which does
not panic. -/
def run : Transport Party Party.Result Feed Alarm Alarm Unit where
  first := do
    Code.spawn (R := Party.Result) Party.feeder
    return .inl ()
  again _ := do
    match ← (Code.recv none : PulseCode _) with
    | .ok alarm =>
      match ← (Code.forward alarm : PulseCode _) with
      | .ok () => return .inl ()
      | .error e => return .inr (.error e)
    | .error _ => do
      Code.join (R := Party.Result) Party.feeder
      return .inr (.ok ())

/-- `run_live` after it has dropped the application: `join`, and `res_rx.try_iter().collect()`. -/
def collect : Routine (ThreadOp Party Feed Alarm Alarm) (ThreadOp.Res Party.Result) (List Alarm)
    (List Alarm) where
  first := do
    let _ ← (Code.join .driver : PulseCode _)
    return .inl []
  again live := do
    match ← (Code.take : PulseCode _) with
    | .ok alarm => return .inl (live ++ [alarm])
    | .error _ => return .inr live

/-- The threads of the service. -/
def program (target : TargetOs) (rt : RtConfig) :
    Program Party Party.Kept Party.Result Feed Alarm Alarm where
  routine
    | .driver => TransportDriver.thread target rt run
    | .feeder =>
      { first := do
          feeder
          return .inr ()
        again := Empty.elim }
    | .main => collect
  drops
    | .driver, _ => .rxOut
    | .feeder, _ => .txIn
    | .main, _ => .nothing
  holdsResults i := i = .driver
  driver := .driver
  main := .main

variable {target : TargetOs} {rt : RtConfig} {n : Nat} {cs ds : List PulseCall}

/-! ## What the threads call -/

/-- Which thread calls what. -/
def Calls : Party → ThreadOp Party Feed Alarm Alarm → Prop
  | .driver, .rt _ => True
  | .driver, .spawn j => j = .feeder
  | .driver, .recv timeoutMs => timeoutMs = none
  | .driver, .forward _ => True
  | .driver, .join j => j = .feeder
  | .feeder, .send _ => True
  | .feeder, .sleep _ => True
  | .main, .join j => j = .driver
  | .main, .take => True
  | _, _ => False

theorem within_burst (seq : List UInt32) : (burst seq).Within (Calls .feeder) := by
  induction seq with
  | nil => trivial
  | cons n seq ih =>
    refine ⟨trivial, ?_⟩
    intro r
    cases r with
    | ok u => exact ⟨trivial, fun _ => ih⟩
    | error e => trivial

theorem within_first (i : Party) : ((program target rt).routine i).first.Within (Calls i) := by
  cases i with
  | driver =>
    refine Prog.Within.bind (Prog.Within.imp ?_ (Prog.within_embed _ _ _)) fun _ => ?_
    · intro o ho
      obtain ⟨o', rfl⟩ := ho
      trivial
    · exact ⟨rfl, fun _ => trivial⟩
  | feeder =>
    refine Prog.Within.bind ?_ fun _ => trivial
    refine Prog.Within.bind (within_burst _) fun _ => ?_
    exact ⟨trivial, fun _ => within_burst _⟩
  | main => exact ⟨rfl, fun _ => trivial⟩

theorem within_again (i : Party) (s : i.Kept) :
    (((program target rt).routine i).again s).Within (Calls i) := by
  cases i with
  | driver =>
    refine ⟨rfl, ?_⟩
    intro r
    cases r with
    | ok alarm =>
      refine ⟨trivial, ?_⟩
      intro r
      cases r <;> trivial
    | error e => exact ⟨rfl, fun _ => trivial⟩
  | feeder => exact s.elim
  | main =>
    refine ⟨trivial, ?_⟩
    intro r
    cases r <;> trivial

/-! ## The driver -/

theorem yields_again {a : Unit ⊕ Except String Unit} (h : (run.again ()).Yields cs a) :
    (∃ v, cs = [⟨.recv none, .ok v⟩, ⟨.forward v, .ok ()⟩] ∧ a = .inl ()) ∨
      (∃ v e, cs = [⟨.recv none, .ok v⟩, ⟨.forward v, .error e⟩] ∧ a = .inr (.error e)) ∨
      ∃ e, cs = [⟨.recv none, .error e⟩, ⟨.join .feeder, ()⟩] ∧ a = .inr (.ok ()) := by
  simp only [run, Code.recv, Code.forward, Code.join, Prog.perform_bind, Prog.yields_call] at h
  obtain ⟨r, ds, rfl, h⟩ := h
  cases r with
  | ok v =>
    obtain ⟨r', ds', rfl, hk⟩ := (Prog.yields_call _ _ _ _).mp h
    cases r' with
    | ok u =>
      obtain ⟨rfl, rfl⟩ := (Prog.yields_ret _ _ _).mp hk
      exact Or.inl ⟨v, rfl, rfl⟩
    | error e =>
      obtain ⟨rfl, rfl⟩ := (Prog.yields_ret _ _ _).mp hk
      exact Or.inr (Or.inl ⟨v, e, rfl, rfl⟩)
  | error e =>
    obtain ⟨r', ds', rfl, hk⟩ := (Prog.yields_call _ _ _ _).mp h
    obtain ⟨rfl, rfl⟩ := (Prog.yields_ret _ _ _).mp hk
    exact Or.inr (Or.inr ⟨e, rfl, rfl⟩)

theorem yields_first {a : Unit ⊕ Except String Unit} (h : run.first.Yields cs a) :
    a = .inl () ∧ cs = [⟨.spawn .feeder, ()⟩] := by
  simp only [run, Code.spawn, Prog.perform_bind, Prog.yields_call] at h
  obtain ⟨u, ds, rfl, h⟩ := h
  obtain ⟨rfl, rfl⟩ := (Prog.yields_ret _ _ _).mp h
  exact ⟨rfl, rfl⟩

/-- Between two rounds the driver has forwarded what it received, one alarm in each round. -/
theorem driver_inl {s : Unit} (h : run.At n cs (.ret (.inl s))) :
    forwarded cs = taken cs ∧ (taken cs).length = n ∧ ⟨.spawn .feeder, ()⟩ ∈ cs := by
  generalize hq : (Prog.ret (.inl s) : PulseCode (Unit ⊕ Except String Unit)) = q at h
  induction h with
  | first h =>
    subst hq
    obtain ⟨-, rfl⟩ := yields_first h
    exact ⟨rfl, rfl, List.mem_singleton.mpr rfl⟩
  | @again n cs ds s' q hcs h ih =>
    subst hq
    obtain ⟨heq, hlen, hspawn⟩ := ih rfl
    rcases yields_again h with ⟨v, rfl, -⟩ | ⟨v, e, -, ha⟩ | ⟨e, -, ha⟩
    · refine ⟨?_, ?_, List.mem_append_left _ hspawn⟩
      · rw [forwarded_append, taken_append, heq]
        rfl
      · rw [taken_append, List.length_append, hlen]
        rfl
    · cases ha
    · cases ha

/-- A driver that has come to the end of a round, or waits for a thread, has spawned the feeder. -/
theorem driver_spawned {q : PulseCode (Unit ⊕ Except String Unit)} (h : run.At n cs q)
    (hq : (∃ a, q = .ret a) ∨ ∃ j k, q = .call (.join j) k) : ⟨.spawn .feeder, ()⟩ ∈ cs := by
  cases h with
  | first h =>
    rcases hq with ⟨a, rfl⟩ | ⟨j, k, rfl⟩
    · rw [(yields_first h).2]
      exact List.mem_singleton.mpr rfl
    · have hwithin : run.first.Within (fun o => ∀ j, o ≠ .join j) :=
        ⟨by simp, fun _ => trivial⟩
      exact absurd rfl ((hwithin.of_follows h).1 j)
  | again hcs h => exact List.mem_append_left _ (driver_inl hcs).2.2

/-- At its end, if no result was refused, the driver has forwarded everything it received, and it
was told that the DAG is gone. -/
theorem driver_inr {r : Except String Unit} (h : run.At n cs (.ret (.inr r)))
    (hforwards : ∀ v r', (⟨.forward v, r'⟩ : PulseCall) ∈ cs → r' = .ok ()) :
    r = .ok () ∧ forwarded cs = taken cs ∧ ∃ e, ⟨.recv none, .error e⟩ ∈ cs := by
  cases h with
  | first h => cases (yields_first h).1
  | again hcs h =>
    obtain ⟨heq, -, -⟩ := driver_inl hcs
    rcases yields_again h with ⟨v, -, ha⟩ | ⟨v, e, rfl, -⟩ | ⟨e, rfl, ha⟩
    · cases ha
    · cases hforwards v (.error e) (by simp)
    · refine ⟨Sum.inr.inj ha, ?_, e, by simp⟩
      rw [forwarded_append, taken_append, heq]
      rfl

theorem driver_rounds {q : PulseCode (Unit ⊕ Except String Unit)} (h : run.At n cs q) :
    n ≤ (taken cs).length + 1 := by
  cases h with
  | first h => exact Nat.zero_le _
  | again hcs h =>
    obtain ⟨-, hlen, -⟩ := driver_inl hcs
    rw [taken_append, List.length_append, hlen]
    omega

variable (target rt) in
theorem feeder_rounds {q : PulseCode (Party.Kept .feeder ⊕ Unit)}
    (h : ((program target rt).routine .feeder).At n cs q) : n ≤ 0 := by
  cases h with
  | first h => exact Nat.le_refl 0
  | @again n cs ds s q hcs h => exact s.elim

/-! ## `main` -/

theorem yields_collect {live : List Alarm} {a : List Alarm ⊕ List Alarm}
    (h : (collect.again live).Yields cs a) :
    (∃ v, cs = [⟨.take, .ok v⟩] ∧ a = .inl (live ++ [v])) ∨
      ∃ e, cs = [⟨.take, .error e⟩] ∧ a = .inr live := by
  simp only [collect, Code.take, Prog.perform_bind, Prog.yields_call] at h
  obtain ⟨r, ds, rfl, h⟩ := h
  cases r with
  | ok v =>
    obtain ⟨rfl, rfl⟩ := (Prog.yields_ret _ _ _).mp h
    exact Or.inl ⟨v, rfl, rfl⟩
  | error e =>
    obtain ⟨rfl, rfl⟩ := (Prog.yields_ret _ _ _).mp h
    exact Or.inr ⟨e, rfl, rfl⟩

/-- Between two rounds `main` has waited for the driver and kept what it received. -/
theorem main_inl {live : List Alarm} (h : collect.At n cs (.ret (.inl live))) :
    collected cs = live ∧ live.length = n ∧ ∃ r, ⟨.join .driver, r⟩ ∈ cs := by
  generalize hq : (Prog.ret (.inl live) : PulseCode (List Alarm ⊕ List Alarm)) = q at h
  induction h generalizing live with
  | first h =>
    subst hq
    obtain ⟨r, ds, rfl, hk⟩ := (Prog.yields_call _ _ _ _).mp (show collect.first.Yields _ _ from h)
    obtain ⟨rfl, hlive⟩ := (Prog.yields_ret _ _ _).mp hk
    obtain rfl : live = [] := Sum.inl.inj hlive
    exact ⟨rfl, rfl, r, List.mem_singleton.mpr rfl⟩
  | @again n cs ds live' q hcs h ih =>
    subst hq
    obtain ⟨heq, hlen, r, hjoin⟩ := ih rfl
    rcases yields_collect h with ⟨v, rfl, hlive⟩ | ⟨e, -, ha⟩
    · obtain rfl : live = live' ++ [v] := Sum.inl.inj hlive
      refine ⟨?_, ?_, r, List.mem_append_left _ hjoin⟩
      · rw [collected_append, heq]
        rfl
      · rw [List.length_append, hlen]
        rfl
    · cases ha

theorem main_inr {live : List Alarm} (h : collect.At n cs (.ret (.inr live))) :
    collected cs = live ∧ (∃ e, ⟨.take, .error e⟩ ∈ cs) ∧ ∃ r, ⟨.join .driver, r⟩ ∈ cs := by
  cases h with
  | first h =>
    obtain ⟨r, ds, rfl, hk⟩ := (Prog.yields_call _ _ _ _).mp (show collect.first.Yields _ _ from h)
    cases ((Prog.yields_ret _ _ _).mp hk).2
  | again hcs h =>
    obtain ⟨heq, -, r, hjoin⟩ := main_inl hcs
    rcases yields_collect h with ⟨v, -, ha⟩ | ⟨e, rfl, hlive⟩
    · cases ha
    · refine ⟨?_, ⟨e, by simp⟩, r, List.mem_append_left _ hjoin⟩
      rw [collected_append, heq, Sum.inr.inj hlive]
      exact List.append_nil _

theorem main_joined {q : PulseCode (List Alarm ⊕ List Alarm)} (h : collect.At n cs q)
    {r : Except TryRecvError Alarm} (htake : ⟨.take, r⟩ ∈ cs) :
    ∃ r', ⟨.join .driver, r'⟩ ∈ cs := by
  cases h with
  | first h =>
    have hwithin : collect.first.Within (fun o => ∃ j, o = .join j) :=
      ⟨⟨_, rfl⟩, fun _ => trivial⟩
    obtain ⟨j, hj⟩ := hwithin.follows h _ htake
    cases hj
  | again hcs h =>
    obtain ⟨-, -, r', hjoin⟩ := main_inl hcs
    exact ⟨r', List.mem_append_left _ hjoin⟩

theorem main_rounds {q : PulseCode (List Alarm ⊕ List Alarm)} (h : collect.At n cs q) :
    n ≤ (collected cs).length + 1 := by
  cases h with
  | first h => exact Nat.zero_le _
  | again hcs h =>
    obtain ⟨heq, hlen, -⟩ := main_inl hcs
    rw [collected_append, List.length_append, heq, hlen]
    omega

end Pulse

end Msrs
