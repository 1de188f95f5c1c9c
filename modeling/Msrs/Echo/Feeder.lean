import Msrs.Echo.EndToEnd
import Msrs.Runtime.Shutdown

/-!
# The transport of the echo service

`main.rs` of the echo service: `Feeder` sends its inputs and then collects one echo for each,
handing their bodies to `main`, which iterates the runtime, drops the application, collects as many
bodies as there are inputs and waits for the transport. Both sides wait with a timeout.

The two routines are read off their calls: at any moment (`driver_moves`, `main_rounds`), between
two rounds (`main_inl`) and at their end (`driver_inr`, `main_inr`).
-/

namespace Msrs

open Interleave Fifo

def EchoMsg.new (s : String) : EchoMsg := { body := s }

/-- The threads of the service. -/
inductive EchoParty where
  | driver
  | main
  deriving DecidableEq

/-- What a thread keeps between two rounds of its loop. -/
@[reducible] def EchoParty.Kept : EchoParty → Type
  | .driver => Empty
  | .main => List String

/-- What a thread ends with. -/
@[reducible] def EchoParty.Result : EchoParty → Type
  | .driver => Except String Unit
  | .main => List String

/-- Code of one of these threads. -/
abbrev FeederCode : Type → Type := Code EchoParty EchoParty.Result EchoMsg EchoMsg String

/-- A call of one of these threads. -/
abbrev FeederCall : Type := ThreadCall EchoParty EchoParty.Result EchoMsg EchoMsg String

namespace Feeder

/-- Feed every input into the DAG. -/
def feed : List String → FeederCode (Except String Unit)
  | [] => return .ok ()
  | msg :: inputs => do
    match ← (Code.send (.new msg) : FeederCode _) with
    | .ok () => feed inputs
    | .error e => return .error e

/-- Collect one echo per input, forwarding its body to `main`. -/
def collect : Nat → FeederCode (Except String Unit)
  | 0 => return .ok ()
  | n + 1 => do
    match ← (Code.recv (some 5000) : FeederCode _) with
    | .ok echoed =>
      match ← (Code.forward echoed.body : FeederCode _) with
      | .ok () => collect n
      | .error e => return .error e
    | .error _ => return .error "timed out waiting for echo"

def run (inputs : List String) :
    Transport EchoParty EchoParty.Result EchoMsg EchoMsg String Empty where
  first := do
    match ← feed inputs with
    | .ok () => do
      let r ← collect inputs.length
      return .inr r
    | .error e => return .inr (.error e)
  again := Empty.elim

/-- The end of `run_live`: the driver's result is dropped. -/
def finish (live : List String) : FeederCode (List String ⊕ List String) := do
  let _ ← (Code.join .driver : FeederCode _)
  return .inr live

/-- `run_live` after it has dropped the application, for `n` inputs. -/
def liveEchoes (n : Nat) : Routine (ThreadOp EchoParty EchoMsg EchoMsg String)
    (ThreadOp.Res EchoParty.Result) (List String) (List String) where
  first := return .inl []
  again live :=
    if live.length < n then do
      match ← (Code.takeTimeout 2000 : FeederCode _) with
      | .ok v => return .inl (live ++ [v])
      | .error _ => finish live
    else finish live

/-- The threads of the service. -/
def program (target : TargetOs) (rt : RtConfig) (inputs : List String) :
    Program EchoParty EchoParty.Kept EchoParty.Result EchoMsg EchoMsg String where
  routine
    | .driver => TransportDriver.thread target rt (run inputs)
    | .main => liveEchoes inputs.length
  drops
    | .driver, r => .both r
    | .main, _ => .nothing
  holdsResults i := i = .driver
  driver := .driver
  main := .main

variable {target : TargetOs} {rt : RtConfig} {inputs : List String} {n k : Nat}
  {cs : List FeederCall}

/-! ## What the threads call -/

/-- Which thread calls what. -/
def Calls : EchoParty → ThreadOp EchoParty EchoMsg EchoMsg String → Prop
  | .driver, .rt _ => True
  | .driver, .send _ => True
  | .driver, .recv _ => True
  | .driver, .forward _ => True
  | .main, .takeTimeout _ => True
  | .main, .join j => j = .driver
  | _, _ => False

theorem within_feed (inputs : List String) :
    (feed inputs).Within (fun o => ∃ m, o = .send m) := by
  induction inputs with
  | nil => trivial
  | cons msg inputs ih =>
    refine ⟨⟨_, rfl⟩, ?_⟩
    intro r
    cases r with
    | ok u => exact ih
    | error e => trivial

theorem within_collect (n : Nat) : (collect n).Within (Calls .driver) := by
  induction n with
  | zero => trivial
  | succ n ih =>
    refine ⟨trivial, ?_⟩
    intro r
    cases r with
    | error e => trivial
    | ok echoed =>
      refine ⟨trivial, ?_⟩
      intro r
      cases r with
      | ok u => exact ih
      | error e => trivial

theorem within_finish (live : List String) : (finish live).Within (Calls .main) :=
  ⟨rfl, fun _ => trivial⟩

theorem within_first (i : EchoParty) :
    ((program target rt inputs).routine i).first.Within (Calls i) := by
  cases i with
  | driver =>
    refine Prog.Within.bind (Prog.Within.imp ?_ (Prog.within_embed _ _ _)) fun _ => ?_
    · intro o ho
      obtain ⟨o', rfl⟩ := ho
      trivial
    · refine Prog.Within.bind (Prog.Within.imp ?_ (within_feed inputs)) fun r => ?_
      · intro o ho
        obtain ⟨m, rfl⟩ := ho
        trivial
      · cases r with
        | ok u => exact Prog.Within.bind (within_collect _) fun _ => trivial
        | error e => trivial
  | main => trivial

theorem within_again (i : EchoParty) (s : i.Kept) :
    (((program target rt inputs).routine i).again s).Within (Calls i) := by
  cases i with
  | driver => exact s.elim
  | main =>
    show (if s.length < inputs.length then _ else _ : FeederCode _).Within _
    by_cases hlt : s.length < inputs.length
    · rw [if_pos hlt]
      refine ⟨trivial, ?_⟩
      intro r
      cases r with
      | ok v => trivial
      | error e => exact within_finish s
    · rw [if_neg hlt]
      exact within_finish s

/-! ## The driver -/

/-- Feeding offers the inputs in order and moves nothing else. -/
theorem follows_feed {q : FeederCode (Except String Unit)} (h : (feed inputs).Follows cs q) :
    offered cs <+: inputs.map .new ∧ taken cs = [] ∧ forwarded cs = [] := by
  induction inputs generalizing cs with
  | nil =>
    obtain ⟨rfl, -⟩ := (Prog.follows_ret _ _ _).mp h
    exact ⟨List.prefix_rfl, rfl, rfl⟩
  | cons msg inputs ih =>
    rcases (Prog.follows_call _ _ _ _).mp h with ⟨rfl, -⟩ | ⟨r, ds, rfl, hk⟩
    · exact ⟨List.nil_prefix, rfl, rfl⟩
    · cases r with
      | ok u =>
        obtain ⟨hoffered, htaken, hforwarded⟩ := ih hk
        exact ⟨(List.prefix_cons_inj _).mpr hoffered, htaken, hforwarded⟩
      | error e =>
        obtain ⟨rfl, -⟩ := (Prog.follows_ret _ _ _).mp hk
        exact ⟨List.nil_prefix, rfl, rfl⟩

/-- It ends with all of them offered, or with an error before the last one. -/
theorem yields_feed {r : Except String Unit} (h : (feed inputs).Yields cs r) :
    (r = .ok () ∧ offered cs = inputs.map .new) ∨
      ∃ e, r = .error e ∧ (offered cs).length < inputs.length ∧
        ∃ m, ⟨.send m, .error e⟩ ∈ cs := by
  induction inputs generalizing cs with
  | nil =>
    obtain ⟨rfl, rfl⟩ := (Prog.yields_ret _ _ _).mp h
    exact Or.inl ⟨rfl, rfl⟩
  | cons msg inputs ih =>
    obtain ⟨r', ds, rfl, hk⟩ := (Prog.yields_call _ _ _ _).mp h
    cases r' with
    | ok u =>
      rcases ih hk with ⟨hr, hoffered⟩ | ⟨e, hr, hlt, m, hm⟩
      · exact Or.inl ⟨hr, congrArg (EchoMsg.new msg :: ·) hoffered⟩
      · exact Or.inr ⟨e, hr, Nat.succ_lt_succ hlt, m, List.mem_cons_of_mem _ hm⟩
    | error e =>
      obtain ⟨rfl, rfl⟩ := (Prog.yields_ret _ _ _).mp hk
      exact Or.inr ⟨e, rfl, Nat.succ_pos _, _, List.mem_cons_self⟩

/-- Collecting forwards the bodies it receives in order, at most one for each input. -/
theorem follows_collect {q : FeederCode (Except String Unit)} (h : (collect n).Follows cs q) :
    offered cs = [] ∧ forwarded cs <+: (taken cs).map EchoMsg.body := by
  induction n generalizing cs with
  | zero =>
    obtain ⟨rfl, -⟩ := (Prog.follows_ret _ _ _).mp h
    exact ⟨rfl, List.prefix_rfl⟩
  | succ n ih =>
    rcases (Prog.follows_call _ _ _ _).mp h with ⟨rfl, -⟩ | ⟨r, ds, rfl, hk⟩
    · exact ⟨rfl, List.prefix_rfl⟩
    · cases r with
      | error e =>
        obtain ⟨rfl, -⟩ := (Prog.follows_ret _ _ _).mp hk
        exact ⟨rfl, List.prefix_rfl⟩
      | ok echoed =>
        rcases (Prog.follows_call _ _ _ _).mp hk with ⟨rfl, -⟩ | ⟨r', ds', rfl, hk'⟩
        · exact ⟨rfl, List.nil_prefix⟩
        · cases r' with
          | ok u =>
            obtain ⟨hoffered, hforwarded⟩ := ih hk'
            exact ⟨hoffered, (List.prefix_cons_inj _).mpr hforwarded⟩
          | error e =>
            obtain ⟨rfl, -⟩ := (Prog.follows_ret _ _ _).mp hk'
            exact ⟨rfl, List.nil_prefix⟩

/-- It ends with all of them, or because a receive failed, if no result is refused. -/
theorem yields_collect {r : Except String Unit} (h : (collect n).Yields cs r)
    (hforwards : ∀ v r', (⟨.forward v, r'⟩ : FeederCall) ∈ cs → r' = .ok ()) :
    forwarded cs = (taken cs).map EchoMsg.body ∧
      ((r = .ok () ∧ (taken cs).length = n) ∨
        (r = .error "timed out waiting for echo" ∧ (taken cs).length < n ∧
          ∃ e, ⟨.recv (some 5000), .error e⟩ ∈ cs)) := by
  induction n generalizing cs with
  | zero =>
    obtain ⟨rfl, rfl⟩ := (Prog.yields_ret _ _ _).mp h
    exact ⟨rfl, Or.inl ⟨rfl, rfl⟩⟩
  | succ n ih =>
    obtain ⟨r', ds, rfl, hk⟩ := (Prog.yields_call _ _ _ _).mp h
    cases r' with
    | error e =>
      obtain ⟨rfl, rfl⟩ := (Prog.yields_ret _ _ _).mp hk
      exact ⟨rfl, Or.inr ⟨rfl, Nat.succ_pos _, e, List.mem_cons_self⟩⟩
    | ok echoed =>
      obtain ⟨r', ds', rfl, hk'⟩ := (Prog.yields_call _ _ _ _).mp hk
      cases r' with
      | error e => cases hforwards echoed.body (.error e) (by simp)
      | ok u =>
        obtain ⟨hall, hends⟩ := ih hk' fun v r' hv =>
          hforwards v r' (List.mem_cons_of_mem _ (List.mem_cons_of_mem _ hv))
        refine ⟨congrArg (echoed.body :: ·) hall, ?_⟩
        rcases hends with ⟨hr, hlen⟩ | ⟨hr, hlt, e, he⟩
        · exact Or.inl ⟨hr, congrArg Nat.succ hlen⟩
        · exact Or.inr ⟨hr, Nat.succ_lt_succ hlt, e,
            List.mem_cons_of_mem _ (List.mem_cons_of_mem _ he)⟩

theorem driver_at {q : FeederCode (Empty ⊕ Except String Unit)} (h : (run inputs).At n cs q) :
    n = 0 ∧ (run inputs).first.Follows cs q := by
  cases h with
  | first h => exact ⟨rfl, h⟩
  | @again n cs ds s q hcs h => exact s.elim

/-- At any moment the driver has offered the first inputs, and forwarded the first bodies of what it
received. -/
theorem driver_moves {q : FeederCode (Empty ⊕ Except String Unit)} (h : (run inputs).At n cs q) :
    offered cs <+: inputs.map .new ∧ forwarded cs <+: (taken cs).map EchoMsg.body := by
  obtain ⟨-, h⟩ := driver_at h
  rcases Prog.follows_bind h with ⟨p', hp, -⟩ | ⟨r, cs₁, cs₂, rfl, h₁, h₂⟩
  · obtain ⟨hoffered, -, hforwarded⟩ := follows_feed hp
    exact ⟨hoffered, hforwarded ▸ List.nil_prefix⟩
  · obtain ⟨hoffered, htaken, hforwarded⟩ := follows_feed h₁
    rw [offered_append, taken_append, forwarded_append, htaken, hforwarded, List.nil_append,
      List.nil_append]
    cases r with
    | ok u =>
      obtain ⟨p', hp⟩ := Prog.follows_bind_ret h₂ fun r => ⟨.inr r, rfl⟩
      obtain ⟨hnone, hall⟩ := follows_collect hp
      rw [hnone, List.append_nil]
      exact ⟨hoffered, hall⟩
    | error e =>
      obtain ⟨rfl, -⟩ := (Prog.follows_ret _ _ _).mp h₂
      exact ⟨(List.append_nil _).symm ▸ hoffered, List.prefix_rfl⟩

/-- At its end, if no result was refused, the driver has forwarded a body for each input, or it
could not send one of them, or it was let down waiting for an echo. -/
theorem driver_inr {r : Except String Unit} (h : (run inputs).At n cs (.ret (.inr r)))
    (hforwards : ∀ v r', (⟨.forward v, r'⟩ : FeederCall) ∈ cs → r' = .ok ()) :
    forwarded cs = (taken cs).map EchoMsg.body ∧
      ((r = .ok () ∧ (taken cs).length = inputs.length) ∨
        (∃ e, r = .error e ∧ (offered cs).length < inputs.length ∧
          ∃ m, ⟨.send m, .error e⟩ ∈ cs) ∨
        (r = .error "timed out waiting for echo" ∧ (taken cs).length < inputs.length ∧
          ∃ e, ⟨.recv (some 5000), .error e⟩ ∈ cs)) := by
  obtain ⟨-, h⟩ := driver_at h
  obtain ⟨r', cs₁, cs₂, rfl, h₁, h₂⟩ := (Prog.yields_bind _ _ _ _).mp h
  obtain ⟨-, htaken, hforwarded⟩ := follows_feed h₁
  rw [taken_append, forwarded_append, htaken, hforwarded, List.nil_append, List.nil_append]
  rcases yields_feed h₁ with ⟨rfl, -⟩ | ⟨e, rfl, hlt, m, hm⟩
  · obtain ⟨r'', hcollect, heq⟩ := (Prog.yields_bind_ret _ _ _ _).mp h₂
    obtain rfl : r = r'' := Sum.inr.inj heq
    obtain ⟨hall, hends⟩ := yields_collect hcollect fun v r' hv =>
      hforwards v r' (List.mem_append_right _ hv)
    refine ⟨hall, ?_⟩
    rcases hends with hok | ⟨hr, hlt, e, he⟩
    · exact Or.inl hok
    · exact Or.inr (Or.inr ⟨hr, hlt, e, List.mem_append_right _ he⟩)
  · obtain ⟨rfl, heq⟩ := (Prog.yields_ret _ _ _).mp h₂
    refine ⟨rfl, Or.inr (Or.inl ⟨e, Sum.inr.inj heq, ?_⟩)⟩
    rw [List.append_nil]
    exact ⟨hlt, m, hm⟩

theorem collect_recv {ms : Option Nat} {k : Except RecvTimeoutError EchoMsg → FeederCode _}
    (h : (collect n).Follows cs (.call (.recv ms) k)) : (taken cs).length < n := by
  induction n generalizing cs with
  | zero => cases ((Prog.follows_ret _ _ _).mp h).2
  | succ n ih =>
    rcases (Prog.follows_call _ _ _ _).mp h with ⟨rfl, -⟩ | ⟨r, ds, rfl, hk⟩
    · exact Nat.succ_pos _
    · cases r with
      | error e => cases ((Prog.follows_ret _ _ _).mp hk).2
      | ok echoed =>
        rcases (Prog.follows_call _ _ _ _).mp hk with ⟨rfl, hcall⟩ | ⟨r', ds', rfl, hk'⟩
        · cases hcall
        · cases r' with
          | error e => cases ((Prog.follows_ret _ _ _).mp hk').2
          | ok u =>
            have hlt : (taken ds').length < n := ih hk'
            exact Nat.succ_lt_succ hlt

theorem driver_recv {ms : Option Nat} {k : Except RecvTimeoutError EchoMsg → FeederCode _}
    (h : (run inputs).At n cs (.call (.recv ms) k)) :
    offered cs = inputs.map .new ∧ (taken cs).length < inputs.length := by
  obtain ⟨-, h⟩ := driver_at h
  rcases Prog.follows_bind_call h with ⟨k', hp⟩ | ⟨r, cs₁, cs₂, rfl, h₁, h₂⟩
  · obtain ⟨m, hm⟩ := ((within_feed inputs).of_follows hp).1
    cases hm
  · obtain ⟨-, htaken, -⟩ := follows_feed h₁
    rcases yields_feed h₁ with ⟨rfl, hoffered⟩ | ⟨e, rfl, -⟩
    · rcases Prog.follows_bind_call h₂ with ⟨k', hp⟩ | ⟨r, cs₃, cs₄, -, -, h₃⟩
      · rw [offered_append, taken_append, hoffered, htaken, (follows_collect hp).1]
        exact ⟨List.append_nil _, collect_recv hp⟩
      · cases ((Prog.follows_ret _ _ _).mp h₃).2
    · cases ((Prog.follows_ret _ _ _).mp h₂).2

/-! ## `main` -/

theorem yields_finish {live : List String} {a : List String ⊕ List String}
    (h : (finish live).Yields cs a) : a = .inr live ∧ ∃ r, cs = [⟨.join .driver, r⟩] := by
  obtain ⟨r, ds, rfl, hk⟩ := (Prog.yields_call _ _ _ _).mp h
  obtain ⟨rfl, rfl⟩ := (Prog.yields_ret _ _ _).mp hk
  exact ⟨rfl, r, rfl⟩

theorem yields_live {live : List String} {a : List String ⊕ List String}
    (h : ((liveEchoes k).again live).Yields cs a) :
    (∃ v, live.length < k ∧ cs = [⟨.takeTimeout 2000, .ok v⟩] ∧ a = .inl (live ++ [v])) ∨
      (a = .inr live ∧ ∃ ds r, cs = ds ++ [⟨.join .driver, r⟩] ∧
        ((¬ live.length < k ∧ ds = []) ∨ ∃ e, ds = [⟨.takeTimeout 2000, .error e⟩])) := by
  change (if live.length < k then _ else _ : FeederCode _).Yields cs a at h
  by_cases hlt : live.length < k
  · rw [if_pos hlt] at h
    obtain ⟨r, ds, rfl, hk⟩ := (Prog.yields_call _ _ _ _).mp h
    cases r with
    | ok v =>
      obtain ⟨rfl, rfl⟩ := (Prog.yields_ret _ _ _).mp hk
      exact Or.inl ⟨v, hlt, rfl, rfl⟩
    | error e =>
      obtain ⟨ha, r, rfl⟩ := yields_finish hk
      exact Or.inr ⟨ha, _, r, rfl, Or.inr ⟨e, rfl⟩⟩
  · rw [if_neg hlt] at h
    obtain ⟨ha, r, rfl⟩ := yields_finish h
    exact Or.inr ⟨ha, [], r, rfl, Or.inl ⟨hlt, rfl⟩⟩

/-- Between two rounds `main` has kept what it collected, one body in each round. -/
theorem main_inl {live : List String} (h : (liveEchoes k).At n cs (.ret (.inl live))) :
    collected cs = live ∧ live.length = n ∧ n ≤ k := by
  generalize hq : (Prog.ret (.inl live) : FeederCode (List String ⊕ List String)) = q at h
  induction h generalizing live with
  | first h =>
    subst hq
    obtain ⟨rfl, heq⟩ := (Prog.follows_ret _ _ _).mp h
    obtain rfl : live = [] := Sum.inl.inj (Prog.ret.inj heq)
    exact ⟨rfl, rfl, Nat.zero_le _⟩
  | @again n cs ds live' q hcs h ih =>
    subst hq
    obtain ⟨heq, hlen, -⟩ := ih rfl
    rcases yields_live h with ⟨v, hlt, rfl, hlive⟩ | ⟨ha, -⟩
    · obtain rfl : live = live' ++ [v] := Sum.inl.inj hlive
      refine ⟨?_, ?_, by omega⟩
      · rw [collected_append, heq]
        rfl
      · rw [List.length_append, hlen]
        rfl
    · cases ha

/-- At its end `main` has a body for each input, or was let down waiting for one; and it has waited
for the driver. -/
theorem main_inr {live : List String} (h : (liveEchoes k).At n cs (.ret (.inr live))) :
    collected cs = live ∧ live.length ≤ k ∧ (∃ r, ⟨.join .driver, r⟩ ∈ cs) ∧
      (live.length = k ∨ ∃ e, ⟨.takeTimeout 2000, .error e⟩ ∈ cs) := by
  cases h with
  | first h => cases ((Prog.follows_ret _ _ _).mp h).2
  | again hcs h =>
    obtain ⟨heq, hlen, hle⟩ := main_inl hcs
    rcases yields_live h with ⟨v, -, -, ha⟩ | ⟨hlive, ds, r, rfl, hends⟩
    · cases ha
    · obtain rfl := Sum.inr.inj hlive
      refine ⟨?_, by omega, ⟨r, by simp⟩, ?_⟩
      · rw [collected_append, heq]
        rcases hends with ⟨-, rfl⟩ | ⟨e, rfl⟩ <;> exact List.append_nil _
      · rcases hends with ⟨hlt, -⟩ | ⟨e, rfl⟩
        · exact Or.inl (by omega)
        · exact Or.inr ⟨e, by simp⟩

theorem main_rounds {q : FeederCode (List String ⊕ List String)} (h : (liveEchoes k).At n cs q) :
    n ≤ k + 1 := by
  cases h with
  | first h => exact Nat.zero_le _
  | again hcs h => exact Nat.succ_le_succ (main_inl hcs).2.2

end Feeder

end Msrs
