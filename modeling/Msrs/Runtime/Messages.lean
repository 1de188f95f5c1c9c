import Msrs.Runtime.Pipeline

/-!
# The message pipeline

`IngressTask -> FsmTask<M> -> EgressTask`: every iteration hands the machine one message, or a
tick if none was there. A machine that emits at most once per step is replayed from the logged
ingress slots by `run_step`, as the echo service does; its triggers are built from the slots a
second time, by `replayTrigger`.
-/

namespace Msrs

open Interleave Fifo

variable {T U σ : Type}

/-! ## The replay of the echo service -/

/-- The trigger a logged ingress slot is replayed as; `none` is the panic on a slot without a
payload and without a time. -/
def replayTrigger (ingress : CuMsg T) : Option (Trigger T) :=
  match ingress.payload, ingress.tov with
  | some input, _ => some (.message input)
  | none, .time t => some (.tick t)
  | none, _ => none

/-- The triggers of a log. -/
def readTriggers {B : Type} (log : List (CopperList (Slots T B))) : Option (List (Trigger T)) :=
  log.mapM fun cl => replayTrigger cl.msgs.1

/-- `run_step` over the triggers: the machine at the end and the output of each step. An error
is the panic of a step that emits more than once. -/
def runSteps (M : FsmSpec σ T U) (machine : σ) :
    List (Trigger T) → Except String (σ × List (Option U))
  | [] => .ok (machine, [])
  | trigger :: triggers =>
    match M.runStep machine trigger with
    | (machine, .ok out) =>
      match runSteps M machine triggers with
      | .ok (machine, outs) => .ok (machine, out :: outs)
      | .error e => .error e
    | (_, .error e) => .error e

theorem runSteps_eq {M : FsmSpec σ T U} (hM : M.EmitsAtMostOnce) (machine : σ)
    (triggers : List (Trigger T)) :
    runSteps M machine triggers = .ok (Mealy.final M.runStepAll machine triggers,
      (Mealy.outputs M.runStepAll machine triggers).map List.head?) := by
  induction triggers generalizing machine with
  | nil => rfl
  | cons trigger triggers ih =>
    rw [runSteps, M.runStep_eq (hM machine trigger)]
    simp only [ih]
    rfl

/-! ## The tasks -/

/-- The three tasks of the message pipeline. -/
def messages (M : FsmSpec σ T U) : Pipeline T U (FsmTask σ) T U :=
  { source := IngressTask.process, transform := FsmTask.process M, sink := EgressTask.process }

theorem map_single {M : FsmSpec σ T U} (hM : M.EmitsAtMostOnce) (machine : σ)
    (triggers : List (Trigger T)) :
    (Mealy.outputs M.runStepAll machine triggers).map single =
      (Mealy.outputs M.runStepAll machine triggers).map List.head? := by
  induction triggers generalizing machine with
  | nil => rfl
  | cons trigger triggers ih =>
    rw [Mealy.outputs_cons, List.map_cons, List.map_cons, ih, single,
      if_pos (hM machine trigger)]

theorem flatMap_single {M : FsmSpec σ T U} (hM : M.EmitsAtMostOnce) (machine : σ)
    (triggers : List (Trigger T)) :
    ((Mealy.outputs M.runStepAll machine triggers).map single).flatMap Option.toList =
      (Mealy.outputs M.runStepAll machine triggers).flatten := by
  induction triggers generalizing machine with
  | nil => rfl
  | cons trigger triggers ih =>
    have hone := hM machine trigger
    rw [Mealy.outputs_cons, List.map_cons, List.flatMap_cons, List.flatten_cons, ih, single,
      if_pos hone]
    congr 1
    cases hout : (M.runStepAll machine trigger).2 with
    | nil => rfl
    | cons v rest =>
      rw [hout, List.length_cons] at hone
      obtain rfl : rest = [] := List.eq_nil_of_length_eq_zero (by omega)
      rfl

/-- What the message pipeline is for: hand over the messages one by one, step the machine with
each or with a tick, and send on what it emits. -/
def messageContract (M : FsmSpec σ T U) : Contract T U (FsmTask σ) T U where
  Filled a := ∃ t, a.tov = .time t
  arrivals a := a.payload.toList
  step s a :=
    match replayTrigger a with
    | some trigger => ({ machine := (M.runStepAll s.machine trigger).1 },
        single (M.runStepAll s.machine trigger).2)
    | none => (s, none)
  values := Option.toList

variable {M : FsmSpec σ T U}

/-- **The two triggers agree** on every slot with a time: the replay builds the one the task
was stepped with. -/
theorem triggerFor_of_replayTrigger {a : CuMsg T} {t : Nat} (h : a.tov = .time t) :
    ∃ trigger, replayTrigger a = some trigger ∧
      (triggerFor a : Io T U (Trigger T)) = .ret trigger := by
  cases hp : a.payload with
  | some m => exact ⟨.message m, by simp [replayTrigger, hp], triggerFor_some hp⟩
  | none => exact ⟨.tick t, by simp [replayTrigger, hp, h], triggerFor_time hp h⟩

theorem FsmTask.yields_slot {s s' : FsmTask σ} {a : CuMsg T} {t : Nat} {b b' : CuMsg U}
    {r : CuResult} {cs : List (IoCall T U)} (ht : a.tov = .time t)
    (h : (FsmTask.process M s a b).Yields cs (s', b', r)) :
    ∃ trigger, replayTrigger a = some trigger ∧
      s'.machine = (M.runStepAll s.machine trigger).1 ∧
      b'.payload = single (M.runStepAll s.machine trigger).2 := by
  obtain ⟨trigger, hreplay, htrigger⟩ := triggerFor_of_replayTrigger (U := U) ht
  obtain ⟨trigger', cs₁, cs₂, rfl, htrig, hs, hforw⟩ := yields_process h
  rw [htrigger] at htrig
  obtain ⟨rfl, rfl⟩ := (Prog.yields_ret _ _ _).mp htrig
  exact ⟨_, hreplay, hs, hforw.payload⟩

theorem messages_meets (M : FsmSpec σ T U) : (messages M).Meets (messageContract M) where
  source {a a' r cs} h := by
    have hsent := sent_eq_nil ((IngressTask.within_process a).follows h)
    obtain ⟨res, now, rfl, -, rfl⟩ := IngressTask.yields_process h
    refine ⟨⟨now, rfl⟩, ?_, hsent⟩
    cases res with
    | ok v => rfl
    | error e => rfl
  source_running {a cs q} h := sent_eq_nil ((IngressTask.within_process a).follows h)
  transform {s s' a b b' r cs} hfilled h := by
    obtain ⟨hreceived, hsent⟩ := idle_of_clock (FsmTask.within_process M s a b) h
    obtain ⟨t, ht⟩ := hfilled
    obtain ⟨trigger, hreplay, hs, hb⟩ := FsmTask.yields_slot ht h
    refine ⟨?_, ?_, hreceived, hsent⟩
    · cases s'
      simp only [messageContract, hreplay]
      exact congrArg _ hs
    · simp only [messageContract, hreplay]
      exact hb
  transform_running {s a b cs q} _ h := idle_of_clock (FsmTask.within_process M s a b) h
  sink {b r cs} h := by
    refine ⟨received_of_sends (EgressTask.within_process b) h, ?_⟩
    intro hall
    exact ((EgressTask.yields_process h).complete hall).1
  sink_running {b cs q} h :=
    ⟨received_of_sends (EgressTask.within_process b) h,
      Sends.of_running EgressTask.yields_process h⟩

/-! ## The machine of the contract -/

/-- On slots with a time the contract's machine is the machine on the replayed triggers. -/
theorem messageContract_run (M : FsmSpec σ T U) (s : FsmTask σ) {as : List (CuMsg T)}
    (h : ∀ a ∈ as, (messageContract M).Filled a) :
    ∃ triggers, as.mapM replayTrigger = some triggers ∧
      (Mealy.final (messageContract M).step s as).machine =
        Mealy.final M.runStepAll s.machine triggers ∧
      Mealy.outputs (messageContract M).step s as =
        (Mealy.outputs M.runStepAll s.machine triggers).map single := by
  induction as generalizing s with
  | nil => exact ⟨[], rfl, rfl, rfl⟩
  | cons a as ih =>
    obtain ⟨⟨t, ht⟩, hrest⟩ := List.forall_mem_cons.mp h
    obtain ⟨trigger, hreplay, -⟩ := triggerFor_of_replayTrigger (U := U) ht
    obtain ⟨triggers, hread, hfinal, houtputs⟩ := ih ((messageContract M).step s a).1 hrest
    have hstep : (messageContract M).step s a =
        ({ machine := (M.runStepAll s.machine trigger).1 },
          single (M.runStepAll s.machine trigger).2) := by
      simp only [messageContract, hreplay]
    rw [hstep] at hfinal houtputs
    refine ⟨trigger :: triggers, ?_, ?_, ?_⟩
    · rw [List.mapM_cons, hreplay, hread]
      rfl
    · rw [Mealy.final_cons, hstep]
      exact hfinal
    · rw [Mealy.outputs_cons, hstep, houtputs]
      rfl

/-! ## Runs -/

/-- A run of the message pipeline on channels nobody has used. -/
def messageRun (M : FsmSpec σ T U) (pick : Nat → Nat) (ring : Nat → Slots T U) (id : UInt64)
    (capacity : Capacity) (clock : Nat) (sched : Schedule T U) :
    Moment T U (FsmTask σ) (Slots T U) :=
  (messages M).dag.run pick (.start (FsmTask.default M) ring id)
    (TransportDriver.spawnWith (Chan.fresh capacity) clock) sched

variable (M : FsmSpec σ T U) (pick : Nat → Nat) (ring : Nat → Slots T U) (id : UInt64)
  (capacity : Capacity) (clock : Nat) (sched : Schedule T U)

theorem message_refines : Pipeline.Refines (messageContract M) (FsmTask.default M)
    (messageRun M pick ring id capacity clock sched) :=
  Pipeline.refines (messages_meets M) pick _ ring id rfl sched

/-! ## What is sent -/

theorem Sends.sent_toList {v : Option U} {cs : List (IoCall T U)} {r : CuResult}
    (h : Sends v.toList cs r) : sent cs = v.toList := by
  cases v with
  | none =>
    cases h
    rfl
  | some v =>
    cases h with
    | fail _ _ e => rfl
    | step _ hrest =>
      cases hrest
      rfl

section Answered

variable {M} {pick} {k : Nat} {rt rt' : Runtime (FsmTask σ) (Slots T U)}
  {cs ds : List (IoCall T U)}

/-- What has been sent so far, and that nothing has failed while everything was delivered. -/
structure Answered (rt : Runtime (FsmTask σ) (Slots T U)) (cs : List (IoCall T U)) : Prop where
  sent : sent cs = rt.log.flatMap fun cl => cl.msgs.2.payload.toList
  ok : delivered cs = Msrs.sent cs → ∀ r ∈ rt.results, r = .ok ()

theorem Answered.idle (h : Answered rt cs) (hlog : rt'.log = rt.log)
    (hresults : rt'.results = rt.results ++ [.ok ()]) (hsent : Msrs.sent ds = []) :
    Answered rt' (cs ++ ds) := by
  refine ⟨?_, ?_⟩
  · rw [sent_append, hsent, List.append_nil, hlog]
    exact h.sent
  · intro hall
    rw [hresults]
    exact List.forall_mem_append.mpr ⟨h.ok (delivered_eq_sent_append.mp hall).1, by simp⟩

theorem Answered.step (hM : M.EmitsAtMostOnce) (h : Answered rt cs)
    (hstage : ((messages M).dag.stage pick k rt).Yields ds rt') : Answered rt' (cs ++ ds) := by
  rcases Pipeline.yields_stage hstage with ⟨h0, a, r, hsrc, rfl⟩ | ⟨h1, s, b, r, htr, rfl⟩ |
    ⟨h2, r, hsink, rfl⟩
  · obtain ⟨res, now, -, rfl, -⟩ := IngressTask.yields_process hsrc
    exact h.idle rfl rfl ((messages_meets M).source hsrc).2.2
  · obtain ⟨trigger, cs₁, cs₂, -, -, -, hforw⟩ := FsmTask.yields_process htr
    have hone := hM rt.state.machine trigger
    revert hforw
    generalize (M.runStepAll rt.state.machine trigger).2 = outs at hone
    intro hforw
    obtain rfl : r = .ok () := by
      cases hforw with
      | nothing => rfl
      | one v t => rfl
      | more _ hmore => omega
    exact h.idle rfl rfl (idle_of_clock (FsmTask.within_process M _ _ _) htr).2
  · have hsends := EgressTask.yields_process hsink
    refine ⟨?_, ?_⟩
    · rw [sent_append, h.sent, hsends.sent_toList]
      rw [Runtime.log_finish, Runtime.log_store, List.flatMap_append, List.flatMap_singleton]
      rfl
    · intro hall
      obtain ⟨hcs, hds⟩ := delivered_eq_sent_append.mp hall
      exact List.forall_mem_append.mpr ⟨h.ok hcs, by simpa using (hsends.complete hds).2⟩

end Answered

theorem answered_run (hM : M.EmitsAtMostOnce) {n : Nat} :
    let m := messageRun M pick ring id capacity clock sched
    m.stage = 3 * n → ∃ cs ds, m.calls = cs ++ ds ∧ Answered m.mem cs ∧ sent ds = [] := by
  intro m hstage
  obtain ⟨cs, ds, hanswered, hfol, hcalls, -⟩ := Shared.run_rule_calls (bridge T U)
    ((messages M).dag.stage pick) (J := fun _ rt cs => Answered rt cs)
    (s := .start (FsmTask.default M) ring id)
    (w := TransportDriver.spawnWith (Chan.fresh capacity) clock)
    ⟨rfl, fun _ r hr => absurd hr List.not_mem_nil⟩
    (fun k rt cs ds rt' h hyields => h.step hM hyields) sched
  change ((messages M).dag.stage pick m.stage m.mem).Follows ds m.cur at hfol
  have hquiet := Pipeline.follows_stage (messages_meets M) (fun h1 => by omega) hfol
  exact ⟨cs, ds, hcalls, hanswered, hquiet.1 (by omega)⟩

/-! ## Replay -/

/-- **Replay determinism.** After any number of iterations of any run of a machine that emits at
most once per step, every logged ingress slot is replayed as a trigger, and `run_step` over
these triggers on a fresh machine ends in the state of the live one and returns, step by step,
the payloads logged in the output slots; and these are what the egress task sent. -/
theorem message_replay (hM : M.EmitsAtMostOnce) {n : Nat}
    (hstage : (messageRun M pick ring id capacity clock sched).stage = 3 * n) :
    let m := messageRun M pick ring id capacity clock sched
    ∃ triggers, readTriggers m.mem.log = some triggers ∧ triggers.length = n ∧
      runSteps M M.default triggers =
        .ok (m.mem.state.machine, m.mem.log.map fun cl => cl.msgs.2.payload) ∧
      m.mem.log.flatMap (fun cl => cl.msgs.2.payload.toList) = sent m.calls := by
  intro m
  obtain ⟨cs, ds, hcalls, hanswered, hquiet⟩ : ∃ cs ds, m.calls = cs ++ ds ∧
      Answered m.mem cs ∧ sent ds = [] :=
    answered_run M pick ring id capacity clock sched hM hstage
  have hafter : Pipeline.After (messageContract M) (FsmTask.default M) id n m :=
    Pipeline.after_iterations (messages_meets M) pick _ ring id rfl sched hstage
  clear_value m
  obtain ⟨triggers, hread, hfinal, hanswers⟩ :=
    messageContract_run M (FsmTask.default M) hafter.filled
  have hoffer := congrArg List.length (hafter.outputs.trans hanswers)
  simp only [List.length_map, Mealy.length_outputs] at hoffer
  rw [List.mapM_map] at hread
  refine ⟨triggers, hread, hoffer.symm.trans hafter.length_log, ?_, ?_⟩
  · rw [runSteps_eq hM, hafter.state, hfinal, hafter.outputs, hanswers, map_single hM]
    rfl
  · rw [hcalls, sent_append, hquiet, List.append_nil, hanswered.sent]

/-- A machine that counts the messages and sends each of them on. -/
def relay : FsmSpec Nat UInt8 UInt8 where
  default := 0
  step seen trigger effects :=
    match trigger with
    | .message m => (seen + 1, effects.emit m)
    | .tick _ => (seen, effects)

theorem relay_emitsAtMostOnce : relay.EmitsAtMostOnce := by
  intro seen trigger
  cases trigger with
  | tick ns => exact Nat.zero_le 1
  | message m => exact Nat.le_refl 1

/-- An iteration that ticks and one that relays a message to a receiver that is gone. -/
theorem message_replay_relay :
    let m := messageRun relay (fun _ => 0) (fun _ => (.new none, .new none)) 5 none 40
      (List.replicate 5 .move ++ .env (.send 7) :: .env .dropRx :: List.replicate 7 .move)
    ∃ triggers, readTriggers m.mem.log = some triggers ∧ triggers.length = 2 ∧
      runSteps relay 0 triggers =
        .ok (m.mem.state.machine, m.mem.log.map fun cl => cl.msgs.2.payload) ∧
      m.mem.log.flatMap (fun cl => cl.msgs.2.payload.toList) = sent m.calls ∧
      sent m.calls = [7] := by
  intro m
  obtain ⟨triggers, hread, hlength, hsteps, hsent⟩ := message_replay relay (fun _ => 0)
    (fun _ => (.new none, .new none)) 5 none 40
    (List.replicate 5 .move ++ .env (.send 7) :: .env .dropRx :: List.replicate 7 .move)
    relay_emitsAtMostOnce (n := 2) rfl
  exact ⟨triggers, hread, hlength, hsteps, hsent, rfl⟩

end Msrs
