import Msrs.Runtime.Dag
import Msrs.Lib.Mealy

/-!
# Pipelines of three tasks

A source, a transform and a sink in a row, run against a transport, and what such a pipeline is
for: a `Contract` says which messages an ingress slot stands for, what the transform makes of a
slot, and which values an output payload stands for. It mentions no channel, no clock and no
slot content from earlier.

**Refinement** (`refines`). If each task does its part (`Meets`), then at every moment of every
run the pipeline has done exactly what the contract says: the ingress slots the transform was
handed carry the accepted messages in order, its state and its output payloads are those of the
contract's machine on these slots, and the values delivered are those of its payloads. What is
missing at a moment is what the iteration under way still has to do.
-/

namespace Msrs

open Interleave

/-- The slots of a source task and a transform task. -/
abbrev Slots (A B : Type) : Type := CuMsg A × CuMsg B

/-- Three tasks in a row. -/
structure Pipeline (T U σ A B : Type) where
  source : CuMsg A → Io T U (CuMsg A × CuResult)
  transform : σ → CuMsg A → CuMsg B → Io T U (σ × CuMsg B × CuResult)
  sink : CuMsg B → Io T U CuResult

/-- What a pipeline is for. -/
structure Contract (T U σ A B : Type) where
  /-- What the source makes sure of in the slot it leaves. -/
  Filled : CuMsg A → Prop
  /-- The messages in an ingress slot. -/
  arrivals : CuMsg A → List T
  /-- The transform, on ingress slots. -/
  step : σ → CuMsg A → σ × Option B
  /-- The values of an output payload. -/
  values : Option B → List U

variable {T U σ A B : Type}

/-- The three tasks in DAG order. -/
def Pipeline.dag (P : Pipeline T U σ A B) : Dag T U σ (Slots A B) where
  tasks := 3
  tasks_pos := by decide
  process
    | 0, s, (a, b) => do
      let (a, r) ← P.source a
      return (s, (a, b), r)
    | 1, s, (a, b) => do
      let (s, b, r) ← P.transform s a b
      return (s, (a, b), r)
    | _, s, (a, b) => do
      let r ← P.sink b
      return (s, (a, b), r)

/-- Each task does its part of the contract: whatever it is answered, the calls it makes and
the slot it leaves fit. -/
structure Pipeline.Meets (P : Pipeline T U σ A B) (c : Contract T U σ A B) : Prop where
  source {a a' : CuMsg A} {r : CuResult} {cs : List (IoCall T U)} :
    (P.source a).Yields cs (a', r) →
      c.Filled a' ∧ received cs = c.arrivals a' ∧ sent cs = []
  source_running {a : CuMsg A} {cs : List (IoCall T U)} {q : Io T U (CuMsg A × CuResult)} :
    (P.source a).Follows cs q → sent cs = []
  transform {s s' : σ} {a : CuMsg A} {b b' : CuMsg B} {r : CuResult} {cs : List (IoCall T U)} :
    c.Filled a → (P.transform s a b).Yields cs (s', b', r) →
      s' = (c.step s a).1 ∧ b'.payload = (c.step s a).2 ∧ received cs = [] ∧ sent cs = []
  transform_running {s : σ} {a : CuMsg A} {b : CuMsg B} {cs : List (IoCall T U)}
      {q : Io T U (σ × CuMsg B × CuResult)} :
    c.Filled a → (P.transform s a b).Follows cs q → received cs = [] ∧ sent cs = []
  sink {b : CuMsg B} {r : CuResult} {cs : List (IoCall T U)} :
    (P.sink b).Yields cs r → received cs = [] ∧
      (delivered cs = sent cs → sent cs = c.values b.payload)
  sink_running {b : CuMsg B} {cs : List (IoCall T U)} {q : Io T U CuResult} :
    (P.sink b).Follows cs q → received cs = [] ∧ sent cs <+: c.values b.payload

namespace Pipeline

/-! ## What the runtime has done -/

section Views

variable (k : Nat) (rt : Runtime σ (Slots A B))

/-- The ingress slots the source has filled. -/
def filled : List (CuMsg A) :=
  rt.log.map (fun cl => cl.msgs.1) ++ if k % 3 = 0 then [] else [rt.msgs.1]

/-- The ingress slots the transform has been run on. -/
def handed : List (CuMsg A) :=
  rt.log.map (fun cl => cl.msgs.1) ++ if k % 3 = 2 then [rt.msgs.1] else []

/-- The output payloads the transform has left. -/
def produced : List (Option B) :=
  rt.log.map (fun cl => cl.msgs.2.payload) ++ if k % 3 = 2 then [rt.msgs.2.payload] else []

/-- The output payloads the sink has been run on. -/
def consumed : List (Option B) := rt.log.map fun cl => cl.msgs.2.payload

end Views

variable {P : Pipeline T U σ A B} {c : Contract T U σ A B} {pick : Nat → Nat} {k : Nat}
  {rt rt' : Runtime σ (Slots A B)} {cs ds : List (IoCall T U)}

/-- What holds between any two stages: the runtime is where the contract says. -/
structure Inv (c : Contract T U σ A B) (s : σ) (k : Nat) (rt : Runtime σ (Slots A B))
    (cs : List (IoCall T U)) : Prop where
  filled : ∀ a ∈ filled k rt, c.Filled a
  received : received cs = (Pipeline.filled k rt).flatMap c.arrivals
  state : rt.state = Mealy.final c.step s (handed k rt)
  produced : produced k rt = Mealy.outputs c.step s (handed k rt)
  sent : delivered cs = sent cs → sent cs = (consumed rt).flatMap c.values

/-! ## One stage -/

theorem yields_stage (h : (P.dag.stage pick k rt).Yields ds rt') :
    (k % 3 = 0 ∧ ∃ a r, (P.source (rt.ring (pick (k / 3))).1).Yields ds (a, r) ∧
        rt' = rt.store (rt.state, (a, (rt.ring (pick (k / 3))).2), r)) ∨
      (k % 3 = 1 ∧ ∃ s b r, (P.transform rt.state rt.msgs.1 rt.msgs.2).Yields ds (s, b, r) ∧
        rt' = rt.store (s, (rt.msgs.1, b), r)) ∨
      (k % 3 = 2 ∧ ∃ r, (P.sink rt.msgs.2).Yields ds r ∧
        rt' = (rt.store (rt.state, rt.msgs, r)).finish (pick (k / 3))) := by
  obtain ⟨out, hout, hrt⟩ := Dag.yields_stage h
  have hlt : k % 3 < 3 := Nat.mod_lt k (by decide)
  have hcases : k % 3 = 0 ∨ k % 3 = 1 ∨ k % 3 = 2 := by omega
  have htasks : P.dag.tasks = 3 := rfl
  simp only [htasks] at hout hrt
  rcases hcases with h0 | h1 | h2
  · refine Or.inl ⟨h0, ?_⟩
    rw [h0] at hout hrt
    rw [if_neg (by decide)] at hrt
    rw [Dag.slots, htasks, if_pos h0] at hout
    obtain ⟨⟨a, r⟩, hsrc, rfl⟩ := (Prog.yields_bind_ret _ _ _ _).mp hout
    exact ⟨a, r, hsrc, hrt⟩
  · refine Or.inr (Or.inl ⟨h1, ?_⟩)
    rw [h1] at hout hrt
    rw [if_neg (by decide)] at hrt
    rw [Dag.slots, htasks, if_neg (by omega)] at hout
    obtain ⟨⟨s, b, r⟩, htr, rfl⟩ := (Prog.yields_bind_ret _ _ _ _).mp hout
    exact ⟨s, b, r, htr, hrt⟩
  · refine Or.inr (Or.inr ⟨h2, ?_⟩)
    rw [h2] at hout hrt
    rw [if_pos rfl] at hrt
    rw [Dag.slots, htasks, if_neg (by omega)] at hout
    obtain ⟨r, hsink, rfl⟩ := (Prog.yields_bind_ret _ _ _ _).mp hout
    exact ⟨r, hsink, hrt⟩

theorem follows_stage (hP : P.Meets c) {q : Io T U (Runtime σ (Slots A B))}
    (hfilled : k % 3 = 1 → c.Filled rt.msgs.1) (h : (P.dag.stage pick k rt).Follows ds q) :
    (k % 3 = 0 → sent ds = []) ∧
      (k % 3 = 1 → received ds = [] ∧ sent ds = []) ∧
      (k % 3 = 2 → received ds = [] ∧ sent ds <+: c.values rt.msgs.2.payload) := by
  obtain ⟨p, hp⟩ := Dag.follows_stage h
  have htasks : P.dag.tasks = 3 := rfl
  rw [htasks] at hp
  refine ⟨?_, ?_, ?_⟩
  · intro h0
    rw [h0] at hp
    obtain ⟨q', hq'⟩ := Prog.follows_bind_ret hp fun out => ⟨_, rfl⟩
    exact hP.source_running hq'
  · intro h1
    rw [h1, Dag.slots, htasks, if_neg (by omega)] at hp
    obtain ⟨q', hq'⟩ := Prog.follows_bind_ret hp fun out => ⟨_, rfl⟩
    exact hP.transform_running (hfilled h1) hq'
  · intro h2
    rw [h2, Dag.slots, htasks, if_neg (by omega)] at hp
    obtain ⟨q', hq'⟩ := Prog.follows_bind_ret hp fun out => ⟨_, rfl⟩
    exact hP.sink_running hq'

theorem views_source (h0 : k % 3 = 0) (s : σ) (m : Slots A B) (r : CuResult) :
    filled (k + 1) (rt.store (s, m, r)) = filled k rt ++ [m.1] ∧
      handed (k + 1) (rt.store (s, m, r)) = handed k rt ∧
      produced (k + 1) (rt.store (s, m, r)) = produced k rt := by
  have hk : (k + 1) % 3 = 1 := by omega
  simp [filled, handed, produced, h0, hk]

theorem views_transform (h1 : k % 3 = 1) (s : σ) (b : CuMsg B) (r : CuResult) :
    filled (k + 1) (rt.store (s, (rt.msgs.1, b), r)) = filled k rt ∧
      handed (k + 1) (rt.store (s, (rt.msgs.1, b), r)) = handed k rt ++ [rt.msgs.1] ∧
      produced (k + 1) (rt.store (s, (rt.msgs.1, b), r)) = produced k rt ++ [b.payload] := by
  have hk : (k + 1) % 3 = 2 := by omega
  simp [filled, handed, produced, h1, hk]

theorem views_sink (h2 : k % 3 = 2) (r : CuResult) (place : Nat) :
    filled (k + 1) ((rt.store (rt.state, rt.msgs, r)).finish place) = filled k rt ∧
      handed (k + 1) ((rt.store (rt.state, rt.msgs, r)).finish place) = handed k rt ∧
      produced (k + 1) ((rt.store (rt.state, rt.msgs, r)).finish place) = produced k rt ∧
      consumed ((rt.store (rt.state, rt.msgs, r)).finish place) =
        consumed rt ++ [rt.msgs.2.payload] := by
  have hk : (k + 1) % 3 = 0 := by omega
  simp [filled, handed, produced, consumed, h2, hk]

theorem length_filled {id : UInt64} (hlog : Dag.Logged P.dag id k rt) :
    (filled k rt).length = (k + 2) / 3 := by
  have hlen : rt.log.length = k / 3 := hlog.length_log
  have hmod : k % 3 = 0 ∨ k % 3 = 1 ∨ k % 3 = 2 := by omega
  rcases hmod with h | h | h <;> simp [filled, h, hlen] <;> omega

theorem mem_filled (h : k % 3 ≠ 0) : rt.msgs.1 ∈ filled k rt := by
  simp [filled, h]

theorem inv_step (hP : P.Meets c) {s : σ} (hinv : Inv c s k rt cs)
    (h : (P.dag.stage pick k rt).Yields ds rt') : Inv c s (k + 1) rt' (cs ++ ds) := by
  obtain ⟨hall, hreceived, hstate, hproduced, hdel⟩ := hinv
  rcases yields_stage h with ⟨h0, a, r, hsrc, rfl⟩ | ⟨h1, s', b, r, htr, rfl⟩ |
    ⟨h2, r, hsink, rfl⟩
  · obtain ⟨hfilled, hrecv, hsent⟩ := hP.source hsrc
    obtain ⟨hf, hh, hp⟩ := views_source h0 rt.state (a, (rt.ring (pick (k / 3))).2) r
    refine ⟨?_, ?_, ?_, ?_, ?_⟩
    · rw [hf]
      exact List.forall_mem_append.mpr ⟨hall, by simpa using hfilled⟩
    · rw [hf, received_append, hreceived, hrecv, List.flatMap_append, List.flatMap_singleton]
    · rw [hh]
      exact hstate
    · rw [hp, hh]
      exact hproduced
    · intro heq
      rw [sent_append, hsent, List.append_nil]
      exact hdel (delivered_eq_sent_append.mp heq).1
  · have hin : rt.msgs.1 ∈ filled k rt := mem_filled (by omega)
    obtain ⟨hs, hb, hrecv, hsent⟩ := hP.transform (hall _ hin) htr
    obtain ⟨hf, hh, hp⟩ := views_transform h1 s' b r
    refine ⟨?_, ?_, ?_, ?_, ?_⟩
    · rw [hf]
      exact hall
    · rw [hf, received_append, hrecv, List.append_nil]
      exact hreceived
    · rw [hh, Mealy.final_snoc, ← hstate]
      exact hs
    · rw [hp, hh, Mealy.outputs_snoc, ← hstate, hproduced, hb]
    · intro heq
      rw [sent_append, hsent, List.append_nil]
      exact hdel (delivered_eq_sent_append.mp heq).1
  · obtain ⟨hrecv, hsends⟩ := hP.sink hsink
    obtain ⟨hf, hh, hp, hc⟩ := views_sink h2 r (pick (k / 3))
    refine ⟨?_, ?_, ?_, ?_, ?_⟩
    · rw [hf]
      exact hall
    · rw [hf, received_append, hrecv, List.append_nil]
      exact hreceived
    · rw [hh]
      exact hstate
    · rw [hp, hh]
      exact hproduced
    · intro heq
      obtain ⟨hcs, hds⟩ := delivered_eq_sent_append.mp heq
      rw [sent_append, hdel hcs, hsends hds, hc, List.flatMap_append, List.flatMap_singleton]

/-! ## Whole runs -/

/-- The messages the iteration under way has received and not yet handed to the transform. -/
def inflight (c : Contract T U σ A B) (m : Moment T U σ (Slots A B)) : List T :=
  if m.stage % 3 = 0 then received (calls (m.ofStage m.stage))
  else if m.stage % 3 = 1 then c.arrivals m.mem.msgs.1
  else []

/-- The values the iteration under way still has to send. -/
def unsent (c : Contract T U σ A B) (m : Moment T U σ (Slots A B)) : List U :=
  if m.stage % 3 = 2 then
    (c.values m.mem.msgs.2.payload).drop (sent (calls (m.ofStage m.stage))).length
  else []

/-- A pipeline at a moment, against its contract. -/
structure Refines (c : Contract T U σ A B) (s : σ) (m : Moment T U σ (Slots A B)) : Prop where
  /-- Once for each iteration that is past its transform. -/
  stepped : (handed m.stage m.mem).length = (m.stage + 1) / 3
  filled : ∀ a ∈ handed m.stage m.mem, c.Filled a
  /-- Every accepted message has been handed over, is on its way there, or is queued. -/
  accepted : Msrs.accepted m.events =
    (handed m.stage m.mem).flatMap c.arrivals ++ inflight c m ++ m.world.inbound.queue
  state : m.mem.state = Mealy.final c.step s (handed m.stage m.mem)
  produced : produced m.stage m.mem = Mealy.outputs c.step s (handed m.stage m.mem)
  /-- Every value produced has been delivered, or is still to be sent. -/
  delivered : NoneRefused m.calls →
    (Pipeline.produced m.stage m.mem).flatMap c.values =
      Msrs.delivered m.calls ++ unsent c m

/-- The invariant at the start of a stage and the calls of the stage since give the refinement
at any moment of the stage. -/
theorem refines_of_inv (hP : P.Meets c) {s : σ} {m : Moment T U σ (Slots A B)} {w : Bridge T U}
    (hw : w.inbound.queue = []) (hlegal : (bridge T U).Legal w m.events m.world)
    (hlength : m.mem.log.length = m.stage / 3) (hinv : Inv c s m.stage m.mem cs)
    (hfol : (P.dag.stage pick m.stage m.mem).Follows (calls (m.ofStage m.stage)) m.cur)
    (hcalls : m.calls = cs ++ calls (m.ofStage m.stage)) : Refines c s m := by
  obtain ⟨hall, hreceived, hstate, hproduced, hdel⟩ := hinv
  have hmod : m.stage % 3 = 0 ∨ m.stage % 3 = 1 ∨ m.stage % 3 = 2 := by omega
  obtain ⟨hsrc, htr, hsink⟩ := follows_stage hP
    (fun h1 => hall _ (mem_filled (by omega))) hfol
  have hqueue : accepted m.events = received m.calls ++ m.world.inbound.queue := by
    have hlaw := queue_law hlegal
    rwa [hw, List.nil_append] at hlaw
  refine ⟨?_, ?_, ?_, hstate, hproduced, ?_⟩
  · rcases hmod with h | h | h <;> simp [handed, h, hlength] <;> omega
  · intro a ha
    refine hall a ?_
    rcases hmod with h | h | h <;> simp_all [Pipeline.filled, handed]
  · rw [hqueue, hcalls, received_append, hreceived]
    rcases hmod with h | h | h
    · simp [Pipeline.filled, handed, inflight, h]
    · simp [Pipeline.filled, handed, inflight, h, (htr h).1]
    · simp [Pipeline.filled, handed, inflight, h, (hsink h).1]
  · intro hall
    have heq := noneRefused_iff.mp hall
    rw [heq]
    rw [hcalls] at heq ⊢
    rw [sent_append, hdel (delivered_eq_sent_append.mp heq).1]
    rcases hmod with h | h | h
    · simp [Pipeline.produced, consumed, unsent, h, hsrc h]
    · simp [Pipeline.produced, consumed, unsent, h, (htr h).2]
    · have hpre := (hsink h).2
      simp [Pipeline.produced, consumed, unsent, h, List.prefix_iff_eq_append.mp hpre]

/-- **Refinement.** At every moment of every run, on channels nobody has used, from any content
of the ring. -/
theorem refines (hP : P.Meets c) (pick : Nat → Nat) (s : σ) (ring : Nat → Slots A B)
    (id : UInt64) {w : Bridge T U} (hw : w.inbound.queue = []) (sched : Schedule T U) :
    Refines c s (P.dag.run pick (.start s ring id) w sched) := by
  obtain ⟨cs, ds, hinv, hfol, hcalls, rfl⟩ := Shared.run_rule_calls (bridge T U)
    (P.dag.stage pick) (J := Inv c s) (s := .start s ring id) (w := w)
    ⟨by simp [Pipeline.filled, Runtime.start], by simp [Pipeline.filled, Runtime.start],
      by simp [handed, Runtime.start], by simp [Pipeline.produced, handed, Runtime.start],
      by simp [consumed, Runtime.start]⟩
    (fun k rt cs ds rt' hinv h => inv_step hP hinv h) sched
  exact refines_of_inv hP hw (Dag.legal_run P.dag pick _ w sched)
    (Dag.logged_run P.dag pick s ring id w sched).length_log hinv hfol hcalls

/-- A pipeline between two iterations, after `n` of them: the log holds everything. -/
structure After (c : Contract T U σ A B) (s : σ) (id : UInt64) (n : Nat)
    (m : Moment T U σ (Slots A B)) : Prop where
  ids : m.mem.log.map CopperList.id = Dag.ids id n
  filled : ∀ a ∈ m.mem.log.map (fun cl => cl.msgs.1), c.Filled a
  state : m.mem.state = Mealy.final c.step s (m.mem.log.map fun cl => cl.msgs.1)
  outputs : m.mem.log.map (fun cl => cl.msgs.2.payload) =
    Mealy.outputs c.step s (m.mem.log.map fun cl => cl.msgs.1)
  /-- The values of the logged payloads are what the sink sent. -/
  sent : NoneRefused m.calls →
    (m.mem.log.map fun cl => cl.msgs.2.payload).flatMap c.values = sent m.calls

theorem After.length_log {s : σ} {id : UInt64} {n : Nat} {m : Moment T U σ (Slots A B)}
    (h : After c s id n m) : m.mem.log.length = n := by
  rw [← List.length_map (f := CopperList.id), h.ids, Dag.ids, List.length_map, List.length_range]

/-- After `n` iterations of any run the transform was handed the logged ingress slots and left
the logged payloads. -/
theorem after_iterations (hP : P.Meets c) (pick : Nat → Nat) (s : σ) (ring : Nat → Slots A B)
    (id : UInt64) {w : Bridge T U} (hw : w.inbound.queue = []) (sched : Schedule T U) {n : Nat}
    (hstage : (P.dag.run pick (.start s ring id) w sched).stage = 3 * n) :
    After c s id n (P.dag.run pick (.start s ring id) w sched) := by
  have href := refines hP pick s ring id hw sched
  have hlog := Dag.logged_run P.dag pick s ring id w sched
  generalize P.dag.run pick (.start s ring id) w sched = m at *
  have hmod : ¬ m.stage % 3 = 2 := by omega
  have hdiv : m.stage / P.dag.tasks = n := by
    show m.stage / 3 = n
    omega
  have hhanded : handed m.stage m.mem = m.mem.log.map fun cl => cl.msgs.1 := by
    simp [handed, hmod]
  have hproduced : produced m.stage m.mem = m.mem.log.map fun cl => cl.msgs.2.payload := by
    simp [produced, hmod]
  refine ⟨hdiv ▸ hlog.map_id, hhanded ▸ href.filled, hhanded ▸ href.state, ?_, ?_⟩
  · rw [← hproduced, ← hhanded]
    exact href.produced
  · intro hall
    rw [← hproduced, href.delivered hall, unsent, if_neg hmod, List.append_nil]
    exact noneRefused_iff.mp hall

end Pipeline

end Msrs
