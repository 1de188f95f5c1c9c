import Msrs.Runtime.Dag
import Mathlib.Data.List.ReduceOption

/-!
# Chains of FSM tasks

An ingress task and then any number of `FsmTask`s, each fed by the one before. Every machine of
a chain keeps a log of its triggers (`FsmSpec.traced`), which is how they are observed.

A task that emits nothing clears the payload of its output slot and leaves the time of validity
there: none in a slot nobody has written, a time of an earlier iteration in one that was. The
next task builds its tick from that. So what holds of a chain holds as long as no task after the
first is handed such a slot.

* `Chain.ticks_current` — if no empty slot between two tasks carries a time, every tick is current.
* `chained_replay` — if every empty slot between two tasks carries a time, triggers are a function
  of the logged slots.
-/

namespace Msrs

open Interleave Fifo

variable {T U In Out : Type}

/-! ## Chains -/

/-- One or more machines in a row. -/
inductive Chain : Type → Type → Type 1 where
  | last {σ In Out : Type} (M : FsmSpec σ In Out) : Chain In Out
  | cons {σ In Mid Out : Type} (M : FsmSpec σ In Mid) (rest : Chain Mid Out) : Chain In Out

namespace Chain

/-- The tasks of a chain. -/
@[reducible] def Tasks {In Out : Type} : Chain In Out → Type
  | @last σ In _ _ => FsmTask (σ × List (Trigger In))
  | @cons σ In _ _ _ rest => FsmTask (σ × List (Trigger In)) × rest.Tasks

/-- The output slots of a chain. -/
@[reducible] def Outputs {In Out : Type} : Chain In Out → Type
  | @last _ _ Out _ => CuMsg Out
  | @cons _ _ Mid _ _ rest => CuMsg Mid × rest.Outputs

/-- The tasks before the first iteration. -/
def start {In Out : Type} : (c : Chain In Out) → c.Tasks
  | last M => FsmTask.default M.traced
  | cons M rest => (FsmTask.default M.traced, rest.start)

/-- The first error of two results. -/
def firstError : CuResult → CuResult → CuResult
  | .ok (), r => r
  | .error e, _ => .error e

/-- One iteration: the tasks in DAG order, each on the output slot of the one before. -/
def process {In Out : Type} : (c : Chain In Out) → c.Tasks → CuMsg In → c.Outputs →
    Io T U (c.Tasks × c.Outputs × CuResult)
  | last M, task, input, output => FsmTask.process M.traced task input output
  | cons M rest, tasks, input, outputs => do
    let (task, output, r) ← FsmTask.process M.traced tasks.1 input outputs.1
    let (tasks, outputs, r') ← rest.process tasks.2 output outputs.2
    return ((task, tasks), (output, outputs), firstError r r')

/-- The tick times each machine has been stepped with, one entry for each iteration. -/
def ticks {In Out : Type} : (c : Chain In Out) → c.Tasks → List (List (Option Nat))
  | last _, task => [task.machine.2.map Trigger.tick?]
  | cons _ rest, tasks => tasks.1.machine.2.map Trigger.tick? :: rest.ticks tasks.2

/-- No empty slot between two tasks carries a time. -/
def Untimed {In Out : Type} : (c : Chain In Out) → c.Outputs → Prop
  | last _, _ => True
  | cons _ rest, outputs =>
    (outputs.1.payload = none → outputs.1.tov = .none) ∧ rest.Untimed outputs.2

/-- The chain behind an ingress task. Its tasks run one after the other in one stage. -/
def dag (ingress : Ingress T In) (c : Chain In Out) :
    Dag T U c.Tasks (CuMsg In × c.Outputs) where
  tasks := 1
  tasks_pos := by decide
  process _ tasks slots := do
    let (input, r) ← ingress.process slots.1
    let (tasks, outputs, r') ← c.process tasks input slots.2
    return (tasks, (input, outputs), firstError r r')

/-! ## One iteration -/

/-- One task of a chain: its machine logs the trigger built from the input slot. -/
theorem yields_task {σ In Out : Type} {M : FsmSpec σ In Out}
    {task task' : FsmTask (σ × List (Trigger In))} {input : CuMsg In}
    {output output' : CuMsg Out} {r : CuResult} {cs : List (IoCall T U)}
    (h : (FsmTask.process M.traced task input output).Yields cs (task', output', r)) :
    ∃ trigger cs₁ cs₂, cs = cs₁ ++ cs₂ ∧ (triggerFor input).Yields cs₁ trigger ∧
      task'.machine = ((M.runStepAll task.machine.1 trigger).1, task.machine.2 ++ [trigger]) ∧
      output'.payload = single (M.runStepAll task.machine.1 trigger).2 := by
  obtain ⟨trigger, cs₁, cs₂, rfl, htrig, hs, hforw⟩ := FsmTask.yields_process h
  rw [FsmSpec.runStepAll_traced] at hs hforw
  exact ⟨trigger, cs₁, cs₂, rfl, htrig, hs, hforw.payload⟩

/-- A tick is the time of the input slot or, in a slot without one, a clock reading. -/
theorem tick_mem {In : Type} {input : CuMsg In} {trigger : Trigger In} {now : Nat}
    {cs : List (IoCall T U)}
    (hinput : input.payload = none → input.tov = .none ∨ input.tov = .time now)
    (h : (triggerFor input).Yields cs trigger) {t : Nat} (ht : trigger.tick? = some t) :
    t = now ∨ t ∈ readings cs := by
  rcases yields_triggerFor h with ⟨m, -, rfl, -⟩ | ⟨t', hp, rfl, htov⟩
  · cases ht
  · cases ht
    rcases htov with ⟨htov, -⟩ | ⟨stop, htov, -⟩ | ⟨-, rfl⟩
    · rcases hinput hp with hnone | htime
      · rw [hnone] at htov
        cases htov
      · rw [htime] at htov
        cases htov
        exact Or.inl rfl
    · rcases hinput hp with hnone | htime
      · rw [hnone] at htov
        cases htov
      · rw [htime] at htov
        cases htov
    · exact Or.inr List.mem_cons_self

/-- One iteration adds one entry to the ticks of every machine, and where no empty slot between
two tasks carries a time, a tick is the time of the input or a reading of the iteration. -/
theorem ticks_process {In Out : Type} (c : Chain In Out) {tasks tasks' : c.Tasks}
    {input : CuMsg In} {outputs outputs' : c.Outputs} {r : CuResult} {cs : List (IoCall T U)}
    {now : Nat} (hinput : input.payload = none → input.tov = .none ∨ input.tov = .time now)
    (h : (c.process tasks input outputs).Yields cs (tasks', outputs', r))
    (huntimed : c.Untimed outputs') :
    ∀ ts' ∈ c.ticks tasks', ∃ ts ∈ c.ticks tasks, ∃ x, ts' = ts ++ [x] ∧
      ∀ t, x = some t → t = now ∨ t ∈ readings cs := by
  induction c generalizing cs r now with
  | last M =>
    obtain ⟨trigger, cs₁, cs₂, rfl, htrig, hs, -⟩ := yields_task (M := M) h
    refine List.forall_mem_singleton.mpr ⟨_, List.mem_singleton_self _, trigger.tick?, ?_, ?_⟩
    · rw [hs, List.map_append, List.map_singleton]
    · intro t ht
      rw [readings_append, List.mem_append]
      exact (tick_mem hinput htrig ht).imp_right Or.inl
  | cons M rest ih =>
    obtain ⟨⟨task₁, output₁, r₁⟩, cs₁, cs₂, rfl, htask, hrest⟩ := (Prog.yields_bind _ _ _ _).mp h
    obtain ⟨⟨tasks₂, outputs₂, r₂⟩, htasks, hout⟩ := (Prog.yields_bind_ret _ _ _ _).mp hrest
    cases hout
    obtain ⟨trigger, cs₅, cs₆, rfl, htrig, hs, -⟩ := yields_task htask
    simp only [readings_append, List.mem_append]
    refine List.forall_mem_cons.mpr ⟨⟨_, List.mem_cons_self, trigger.tick?, ?_, ?_⟩, ?_⟩
    · rw [hs, List.map_append, List.map_singleton]
    · intro t ht
      exact (tick_mem hinput htrig ht).imp_right fun h => Or.inl (Or.inl h)
    · intro ts' hts'
      have hnext : output₁.payload = none → output₁.tov = .none ∨ output₁.tov = .time now :=
        fun hp => Or.inl (huntimed.1 hp)
      obtain ⟨ts, hts, x, rfl, hx⟩ := ih hnext htasks huntimed.2 ts' hts'
      refine ⟨ts, List.mem_cons_of_mem _ hts, x, rfl, ?_⟩
      intro t ht
      exact (hx t ht).imp_right Or.inr

theorem yields_stage {ingress : Ingress T In} {c : Chain In Out} {pick : Nat → Nat} {k : Nat}
    {rt rt' : Runtime c.Tasks (CuMsg In × c.Outputs)} {cs : List (IoCall T U)}
    (h : ((dag ingress c).stage pick k rt).Yields cs rt') :
    ∃ input now tasks outputs r cs₁ cs₂, cs = cs₁ ++ cs₂ ∧ readings cs₁ = [now] ∧
      input.tov = .time now ∧
      (c.process rt.state input (rt.ring (pick k)).2).Yields cs₂ (tasks, outputs, r) ∧
      rt'.state = tasks ∧
      rt'.log = rt.log ++ [{ id := rt.nextId, msgs := (input, outputs) }] := by
  obtain ⟨⟨tasks, ⟨input, outputs⟩, r⟩, hout, hrt⟩ := Dag.yields_stage h
  have htasks : (dag ingress c : Dag T U _ _).tasks = 1 := rfl
  rw [htasks, if_pos (show k % 1 + 1 = 1 by omega)] at hrt
  rw [Dag.slots, htasks, if_pos (show k % 1 = 0 by omega), Nat.div_one] at hout
  obtain ⟨⟨input₁, r₁⟩, cs₁, cs₂, rfl, hsrc, hrest⟩ := (Prog.yields_bind _ _ _ _).mp hout
  obtain ⟨⟨tasks₂, outputs₂, r₂⟩, hchain, hslots⟩ := (Prog.yields_bind_ret _ _ _ _).mp hrest
  cases hslots
  obtain ⟨now, htov, hreadings, -⟩ := Ingress.yields_process hsrc
  refine ⟨_, now, _, _, r₂, cs₁, cs₂, rfl, hreadings, htov, hchain, ?_, ?_⟩
  · rw [hrt]
    rfl
  · rw [hrt]
    rfl

theorem ticks_start {In Out : Type} (c : Chain In Out) : ∀ ts ∈ c.ticks c.start, ts = [] := by
  induction c with
  | last M => exact List.forall_mem_singleton.mpr rfl
  | cons M rest ih => exact List.forall_mem_cons.mpr ⟨rfl, ih⟩

/-! ## Current ticks -/

/-- The ticks of one machine against the log: none is earlier than the ingress slot of its own
iteration, and they never decrease. -/
structure Current {C : Type} (log : List (CopperList (CuMsg In × C))) (ts : List (Option Nat)) :
    Prop where
  length : ts.length = log.length
  current : ∀ (i : Nat) (cl : CopperList (CuMsg In × C)) (t : Nat), log[i]? = some cl →
    ts[i]? = some (some t) → ∃ tov, cl.msgs.1.tov = .time tov ∧ tov ≤ t
  monotone : ts.reduceOption.Pairwise (· ≤ ·)

/-- One more iteration, whose ticks are at its ingress time or later and not before any tick so
far. -/
theorem Current.snoc {C : Type} {log : List (CopperList (CuMsg In × C))} {ts : List (Option Nat)}
    (h : Current log ts) {cl : CopperList (CuMsg In × C)} {now : Nat} {x : Option Nat}
    (hcl : cl.msgs.1.tov = .time now)
    (hx : ∀ t, x = some t → now ≤ t ∧ ∀ t', some t' ∈ ts → t' ≤ t) :
    Current (log ++ [cl]) (ts ++ [x]) := by
  refine ⟨by simp [h.length], ?_, ?_⟩
  · intro i cl' t hi ht
    by_cases hlt : i < log.length
    · rw [List.getElem?_append_left hlt] at hi
      rw [List.getElem?_append_left (h.length ▸ hlt)] at ht
      exact h.current i cl' t hi ht
    · rw [List.getElem?_append_right (by omega)] at hi
      rw [List.getElem?_append_right (by have := h.length; omega), h.length] at ht
      rw [List.getElem?_singleton] at hi ht
      split at hi
      · rename_i hz
        rw [if_pos hz] at ht
        cases hi
        exact ⟨now, hcl, (hx t (Option.some.inj ht)).1⟩
      · cases hi
  · rw [List.reduceOption_append, List.reduceOption_singleton, List.pairwise_append]
    refine ⟨h.monotone, ?_, ?_⟩
    · cases x <;> simp
    · intro t' ht' t ht
      rw [List.reduceOption_mem_iff] at ht'
      rw [Option.mem_toList] at ht
      exact (hx t ht).2 t' ht'

/-- Every tick of a chain is current. -/
def TicksCurrent (c : Chain In Out) (rt : Runtime c.Tasks (CuMsg In × c.Outputs)) : Prop :=
  ∀ ts ∈ c.ticks rt.state, Current rt.log ts

/-- The invariant: under both conditions, ticks are current and are readings of the past. -/
def TickInv (c : Chain In Out) (rt : Runtime c.Tasks (CuMsg In × c.Outputs))
    (cs : List (IoCall T U)) : Prop :=
  (∀ cl ∈ rt.log, c.Untimed cl.msgs.2) → (readings cs).Pairwise (· ≤ ·) →
    ∀ ts ∈ c.ticks rt.state, Current rt.log ts ∧ ∀ t, some t ∈ ts → t ∈ readings cs

theorem TickInv.step {ingress : Ingress T In} {c : Chain In Out} {pick : Nat → Nat} {k : Nat}
    {rt rt' : Runtime c.Tasks (CuMsg In × c.Outputs)} {cs ds : List (IoCall T U)}
    (hinv : TickInv c rt cs) (h : ((dag ingress c).stage pick k rt).Yields ds rt') :
    TickInv c rt' (cs ++ ds) := by
  obtain ⟨input, now, tasks, outputs, r, ds₁, ds₂, rfl, hnow, htov, hchain, rfl, hlog⟩ :=
    yields_stage h
  intro huntimed hsorted ts' hts'
  rw [hlog, List.forall_mem_append, List.forall_mem_singleton] at huntimed
  rw [readings_append, readings_append, hnow, List.singleton_append, List.pairwise_append,
    List.pairwise_cons] at hsorted
  obtain ⟨hpast, ⟨hfirst, -⟩, hle⟩ := hsorted
  obtain ⟨ts, hts, x, rfl, hx⟩ :=
    ticks_process c (fun _ => Or.inr htov) hchain huntimed.2 ts' hts'
  obtain ⟨hcurrent, hmem⟩ := hinv huntimed.1 hpast ts hts
  have hreading : ∀ t, x = some t → t ∈ now :: readings ds₂ := by
    intro t ht
    exact List.mem_cons.mpr (hx t ht)
  have hlater : ∀ t, x = some t → now ≤ t ∧ ∀ t', some t' ∈ ts → t' ≤ t := by
    intro t ht
    constructor
    · rcases hx t ht with rfl | hin
      · exact Nat.le_refl _
      · exact hfirst t hin
    · intro t' ht'
      exact hle t' (hmem t' ht') t (hreading t ht)
  rw [hlog]
  refine ⟨hcurrent.snoc htov hlater, ?_⟩
  intro t ht
  rw [readings_append, readings_append, hnow, List.mem_append]
  rcases List.mem_append.mp ht with hold | hnew
  · exact Or.inl (hmem t hold)
  · exact Or.inr (hreading t (List.mem_singleton.mp hnew).symm)

/-- A run of a chain against a transport. -/
def run (ingress : Ingress T In) (c : Chain In Out) (pick : Nat → Nat)
    (ring : Nat → CuMsg In × c.Outputs) (id : UInt64) (w : Bridge T U) (sched : Schedule T U) :
    Moment T U c.Tasks (CuMsg In × c.Outputs) :=
  (dag ingress c).run pick (.start c.start ring id) w sched

/-- **Ticks are current** in every run with a clock that never goes back in which no task after
the first is handed an empty slot that carries a time: no machine is stepped with a tick before
the ingress time of the same iteration, and the ticks of each machine never decrease. -/
theorem ticks_current (c : Chain T Out) (pick : Nat → Nat) (ring : Nat → CuMsg T × c.Outputs)
    (id : UInt64) (w : Bridge T U) (sched : Schedule T U) :
    let m := run .ingressTask c pick ring id w sched
    (readings m.calls).Pairwise (· ≤ ·) → (∀ cl ∈ m.mem.log, c.Untimed cl.msgs.2) →
      TicksCurrent c m.mem := by
  intro m hsorted huntimed
  obtain ⟨cs, ds, hinv, -, hcalls, -⟩ := Shared.run_rule_calls (bridge T U)
    ((dag .ingressTask c).stage pick) (J := fun _ => TickInv c)
    (s := .start c.start ring id) (w := w)
    (fun _ _ ts hts => by
      rw [ticks_start c ts hts]
      exact ⟨⟨rfl, by simp, by simp⟩, by simp⟩)
    (fun k rt cs ds rt' hinv h => hinv.step h) sched
  change m.calls = cs ++ ds at hcalls
  rw [hcalls, readings_append, List.pairwise_append] at hsorted
  intro ts hts
  exact (hinv huntimed hsorted.1 ts hts).1

/-- A machine that sends every message on and emits nothing on a tick. -/
def forwardMessages : FsmSpec Unit UInt8 UInt8 where
  default := ()
  step s trigger effects :=
    match trigger with
    | .message m => (s, effects.emit m)
    | .tick _ => (s, effects)

/-- Two such machines in a row. -/
def forwarders : Chain UInt8 UInt8 := .cons forwardMessages (.last forwardMessages)

/-- A run of them on a ring of two copperlists: a message at time 10, nothing at time 20, nothing
at time 30. -/
def staleRun : Moment UInt8 Unit forwarders.Tasks (CuMsg UInt8 × forwarders.Outputs) :=
  run .ingressTask forwarders (fun k => k % 2)
    (fun _ => (.new none, .new none, .new none)) 0 (TransportDriver.spawn 0)
    (.env (.clock 10) :: .env (.send 7) :: List.replicate 5 .move ++
      .env (.clock 20) :: List.replicate 4 .move ++ .env (.clock 30) :: List.replicate 3 .move)

/-- In the third iteration the second machine is stepped with a tick at time 10, which the first
iteration left in the slot. -/
theorem staleRun_not_current : (readings staleRun.calls).Pairwise (· ≤ ·) ∧
    ¬ TicksCurrent forwarders staleRun.mem := by
  refine ⟨by decide, ?_⟩
  intro hcurrent
  have hticks := hcurrent [none, some 20, some 10] (by decide)
  exact absurd hticks.monotone (by decide)

/-- One iteration on fresh slots: nothing arrives, and both machines tick at current times. -/
theorem ticks_current_fresh :
    let m := run .ingressTask forwarders (fun k => k % 2)
      (fun _ => (.new none, .new none, .new none)) 0 (TransportDriver.spawn (U := Unit) 0)
      (.env (.clock 10) :: List.replicate 4 .move)
    TicksCurrent forwarders m.mem := by
  refine ticks_current forwarders _ _ 0 _ _ (by decide) ?_
  intro cl hcl
  obtain rfl := List.mem_singleton.mp hcl
  exact ⟨fun _ => rfl, trivial⟩

/-! ## Replay of a chained task -/

section Replay

variable {α β Mid : Type} {A : FsmSpec α In Mid} {B : FsmSpec β Mid Out}

/-- What the second of two tasks was handed in an iteration. -/
abbrev handed (cl : CopperList (CuMsg In × (cons A (last B)).Outputs)) : CuMsg Mid := cl.msgs.2.1

/-- What the second of two tasks recorded in an iteration. -/
abbrev recorded (cl : CopperList (CuMsg In × (cons A (last B)).Outputs)) : Option Out :=
  cl.msgs.2.2.payload

/-- The triggers the second of two machines has been stepped with. -/
abbrev triggers (rt : Runtime (cons A (last B)).Tasks (CuMsg In × (cons A (last B)).Outputs)) :
    List (Trigger Mid) := rt.state.2.machine.2

/-- The invariant: if every slot handed to the second task stands for a trigger, its machine has
been stepped with these, and with nothing else. -/
def ReplayInv (rt : Runtime (cons A (last B)).Tasks (CuMsg In × (cons A (last B)).Outputs)) :
    Prop :=
  (∀ cl ∈ rt.log, (handed cl).trigger? ≠ none) →
    (triggers rt).map some = rt.log.map (fun cl => (handed cl).trigger?) ∧
      rt.state.2.machine.1 = Mealy.final B.runStepAll B.default (triggers rt) ∧
      rt.log.map recorded = (Mealy.outputs B.runStepAll B.default (triggers rt)).map single

theorem ReplayInv.step {ingress : Ingress T In} {pick : Nat → Nat} {k : Nat}
    {rt rt' : Runtime (cons A (last B)).Tasks (CuMsg In × (cons A (last B)).Outputs)}
    {ds : List (IoCall T U)} (hinv : ReplayInv rt)
    (h : ((dag ingress (cons A (last B))).stage pick k rt).Yields ds rt') : ReplayInv rt' := by
  obtain ⟨input, now, tasks, outputs, r, ds₁, ds₂, rfl, -, -, hchain, rfl, hlog⟩ :=
    yields_stage h
  intro hstand
  rw [hlog, List.forall_mem_append, List.forall_mem_singleton] at hstand
  obtain ⟨htriggers, hstate, hrecorded⟩ := hinv hstand.1
  obtain ⟨⟨task₁, output₁, r₁⟩, cs₁, cs₂, rfl, htask, hrest⟩ :=
    (Prog.yields_bind _ _ _ _).mp hchain
  obtain ⟨⟨task₂, output₂, r₂⟩, htask₂, hout⟩ := (Prog.yields_bind_ret _ _ _ _).mp hrest
  obtain ⟨htasks, houts⟩ := Prod.mk.inj hout
  obtain ⟨houtputs, -⟩ := Prod.mk.inj houts
  obtain ⟨trigger, cs₅, cs₆, rfl, htrig, hmachine, hpayload⟩ := yields_task (M := B) htask₂
  subst houtputs
  -- The slot stands for a trigger, so the task has built it without the clock.
  obtain ⟨trigger', hslot⟩ := Option.ne_none_iff_exists'.mp hstand.2
  rw [triggerFor_of_trigger? (show output₁.trigger? = some trigger' from hslot)] at htrig
  obtain ⟨rfl, rfl⟩ := (Prog.yields_ret _ _ _).mp htrig
  have hnew : triggers rt' = triggers rt ++ [trigger] := by
    rw [triggers, htasks]
    exact congrArg Prod.snd hmachine
  refine ⟨?_, ?_, ?_⟩
  · rw [hnew, List.map_append, htriggers, hlog, List.map_append, List.map_singleton,
      List.map_singleton, hslot]
  · rw [hnew, Mealy.final_snoc, ← hstate, htasks]
    exact congrArg Prod.fst hmachine
  · rw [hnew, Mealy.outputs_snoc, ← hstate, hlog, List.map_append, List.map_append, hrecorded,
      List.map_singleton, List.map_singleton]
    exact congrArg (_ ++ [·]) hpayload

/-- In every run whose second task is never handed an empty slot without a time, its triggers are
those the logged slots stand for, and its outputs those of its machine on these triggers. -/
theorem replayInv_run (ingress : Ingress T In) (A : FsmSpec α In Mid) (B : FsmSpec β Mid Out)
    (pick : Nat → Nat) (ring : Nat → CuMsg In × (cons A (last B)).Outputs) (id : UInt64)
    (w : Bridge T U) (sched : Schedule T U) :
    ReplayInv (run ingress (cons A (last B)) pick ring id w sched).mem := by
  obtain ⟨cs, ds, hinv, -⟩ := Shared.run_rule_calls (bridge T U)
    ((dag ingress (cons A (last B))).stage pick) (J := fun _ rt _ => ReplayInv rt)
    (s := .start (cons A (last B)).start ring id) (w := w) (fun _ => ⟨rfl, rfl, rfl⟩)
    (fun k rt cs ds rt' hinv h => hinv.step h) sched
  exact hinv

/-- **Per-stage replay.** Take two runs of an ingress task and two chained tasks in which the
slots handed to the second task are logged alike. If none of them is empty and without a time,
both runs step the second machine with the same triggers and record the same outputs, whatever
their clocks. -/
theorem chained_replay (ingress : Ingress T In) (A : FsmSpec α In Mid) (B : FsmSpec β Mid Out)
    (pick₁ pick₂ : Nat → Nat) (ring₁ ring₂ : Nat → CuMsg In × (cons A (last B)).Outputs)
    (id₁ id₂ : UInt64) (w₁ w₂ : Bridge T U) (sched₁ sched₂ : Schedule T U) :
    let m₁ := run ingress (cons A (last B)) pick₁ ring₁ id₁ w₁ sched₁
    let m₂ := run ingress (cons A (last B)) pick₂ ring₂ id₂ w₂ sched₂
    m₁.mem.log.map handed = m₂.mem.log.map handed →
      (∀ cl ∈ m₁.mem.log, ¬ ((handed cl).payload = none ∧ (handed cl).tov = .none)) →
      triggers m₁.mem = triggers m₂.mem ∧ m₁.mem.log.map recorded = m₂.mem.log.map recorded := by
  intro m₁ m₂ hslots htimed
  have hinv₁ : ReplayInv m₁.mem := replayInv_run ingress A B pick₁ ring₁ id₁ w₁ sched₁
  have hinv₂ : ReplayInv m₂.mem := replayInv_run ingress A B pick₂ ring₂ id₂ w₂ sched₂
  clear_value m₁ m₂
  have hstand₁ : ∀ cl ∈ m₁.mem.log, (handed cl).trigger? ≠ none := by
    intro cl hcl hnone
    exact htimed cl hcl (trigger?_eq_none.mp hnone)
  have hstand₂ : ∀ cl ∈ m₂.mem.log, (handed cl).trigger? ≠ none := by
    intro cl hcl
    have hmem : handed cl ∈ m₁.mem.log.map handed := hslots ▸ List.mem_map_of_mem hcl
    obtain ⟨cl', hcl', heq⟩ := List.mem_map.mp hmem
    rw [← heq]
    exact hstand₁ cl' hcl'
  obtain ⟨htriggers₁, -, hrecorded₁⟩ := hinv₁ hstand₁
  obtain ⟨htriggers₂, -, hrecorded₂⟩ := hinv₂ hstand₂
  have hsame : triggers m₁.mem = triggers m₂.mem := by
    have hmap := congrArg (List.map CuMsg.trigger?) hslots
    rw [List.map_map, List.map_map] at hmap
    exact List.map_injective_iff.mpr (fun _ _ => Option.some.inj)
      (htriggers₁.trans (hmap.trans htriggers₂.symm))
  exact ⟨hsame, by rw [hrecorded₁, hrecorded₂, hsame]⟩

/-- A machine that emits the time of every tick. -/
def tellTime : FsmSpec Unit UInt8 Nat where
  default := ()
  step s trigger effects :=
    match trigger with
    | .message _ => (s, effects)
    | .tick ns => (s, effects.emit ns)

/-- One iteration without a message on slots nobody has written, at the given time. -/
def untimedRun (clock : Nat) : Moment UInt8 Unit (cons forwardMessages (last tellTime)).Tasks
    (CuMsg UInt8 × (cons forwardMessages (last tellTime)).Outputs) :=
  run .ingressTask (cons forwardMessages (last tellTime)) (fun k => k % 2)
    (fun _ => (.new none, .new none, .new none)) 0 (TransportDriver.spawn clock)
    (List.replicate 5 .move)

/-- Two runs that log the same slot for the second task, empty and without a time, step it with
different ticks and record different outputs. -/
theorem untimedRun_differs :
    (untimedRun 1).mem.log.map handed = (untimedRun 2).mem.log.map handed ∧
      triggers (untimedRun 1).mem ≠ triggers (untimedRun 2).mem ∧
      (untimedRun 1).mem.log.map recorded ≠ (untimedRun 2).mem.log.map recorded := by
  refine ⟨by decide, by decide, by decide⟩

/-- Two runs at different times that hand the second task the same empty slot with a time. -/
theorem chained_replay_stale :
    let m (clock : Nat) := run .ingressTask (cons forwardMessages (last tellTime))
      (fun k => k % 2) (fun _ => (.new none, { payload := none, tov := .time 5 }, .new none)) 0
      (TransportDriver.spawn (U := Unit) clock) (List.replicate 4 .move)
    triggers (m 1).mem = triggers (m 2).mem ∧
      (m 1).mem.log.map recorded = (m 2).mem.log.map recorded := by
  intro m
  refine chained_replay .ingressTask forwardMessages tellTime _ _ _ _ _ _ _ _ _ _ (by decide) ?_
  intro cl hcl hempty
  obtain rfl := List.mem_singleton.mp hcl
  cases hempty.2

end Replay

end Chain

end Msrs
