import Msrs.Echo.Machine
import Msrs.Runtime.Attempts

/-!
# The echo service behind its transport

`IngressTask -> FsmTask<EchoMachine> -> EgressTask` against any transport: after any number of
iterations the service has answered the first messages sent, one for each iteration that found a
message queued, under the numbers 1, 2, 3, … and nothing else (`echo_end_to_end`).
-/

namespace Msrs

open Interleave Fifo

theorem messages_of_replay {T : Type} {as : List (CuMsg T)} {triggers : List (Trigger T)}
    (h : as.mapM replayTrigger = some triggers) :
    triggers.filterMap Trigger.message? = as.flatMap fun a => a.payload.toList := by
  induction as generalizing triggers with
  | nil =>
    obtain rfl : [] = triggers := Option.some.inj h
    rfl
  | cons a as ih =>
    obtain ⟨trigger, hfirst, triggers', hrest, rfl⟩ : ∃ trigger, replayTrigger a = some trigger ∧
        ∃ triggers', as.mapM replayTrigger = some triggers' ∧ trigger :: triggers' = triggers := by
      simpa [List.mapM_cons, Option.bind_eq_some_iff] using h
    have hmessage : trigger.message? = a.payload := by
      unfold replayTrigger at hfirst
      split at hfirst
      · rename_i input _ hp
        rw [hp, ← Option.some.inj hfirst]
        rfl
      · rename_i t hp _
        rw [hp, ← Option.some.inj hfirst]
        rfl
      · cases hfirst
    rw [List.filterMap_cons, List.flatMap_cons, ← ih hrest, hmessage]
    cases a.payload <;> rfl

section Runs

variable (pick : Nat → Nat) (ring : Nat → Slots EchoMsg EchoMsg) (id : UInt64)
  (capacity : Capacity) (clock : Nat) (sched : Schedule EchoMsg EchoMsg)

/-- **The state and the answers.** Between two iterations the machine has counted the messages
handed over, and the logged output slots hold the answers to them. -/
theorem echo_answers {n : Nat} :
    let m := messageRun echo pick ring id capacity clock sched
    m.stage = 3 * n → (accepted m.events).length < 2 ^ 64 →
      m.mem.state.machine = .counted (logged m.mem.log).length ∧
      m.mem.log.flatMap (fun cl => cl.msgs.2.payload.toList) = echoes 0 (logged m.mem.log) := by
  intro m hstage hfew
  have hle := (logged_accepted echo pick ring id capacity clock sched hstage).length_le
  change (logged m.mem.log).length ≤ (accepted m.events).length at hle
  have hafter : Pipeline.After (messageContract echo) (FsmTask.default echo) id n m :=
    Pipeline.after_iterations (messages_meets echo) pick _ ring id rfl sched hstage
  clear_value m
  obtain ⟨triggers, hread, hfinal, houtputs⟩ :=
    messageContract_run echo (FsmTask.default echo) hafter.filled
  have hmessages : triggers.filterMap Trigger.message? = logged m.mem.log := by
    rw [messages_of_replay hread, List.flatMap_map]
    rfl
  obtain ⟨hcount, hemitted⟩ := echo_run (n := 0) triggers (by
    rw [hmessages]
    omega)
  rw [hmessages, Nat.zero_add, ← default_counted] at hcount
  rw [hmessages, ← default_counted] at hemitted
  refine ⟨?_, ?_⟩
  · rw [hafter.state, hfinal]
    exact hcount
  · have hpayloads : m.mem.log.flatMap (fun cl => cl.msgs.2.payload.toList) =
        (m.mem.log.map fun cl => cl.msgs.2.payload).flatMap Option.toList := by
      rw [List.flatMap_map]
    rw [hpayloads, hafter.outputs, houtputs, flatMap_single echo_emitsAtMostOnce]
    exact hemitted

theorem echo_silent {n i : Nat} {cl : CopperList (Slots EchoMsg EchoMsg)} :
    let m := messageRun echo pick ring id capacity clock sched
    m.stage = 3 * n → m.mem.log[i]? = some cl → cl.msgs.1.payload = none →
      cl.msgs.2.payload = none := by
  intro m hstage hcl hnone
  have hafter : Pipeline.After (messageContract echo) (FsmTask.default echo) id n m :=
    Pipeline.after_iterations (messages_meets echo) pick _ ring id rfl sched hstage
  clear_value m
  have hout := congrArg (fun l => l[i]?) hafter.outputs
  simp only [Mealy.getElem?_outputs, List.getElem?_map, hcl, Option.map_some,
    Option.some.injEq] at hout
  have hstep (s : FsmTask EchoMachine) : ((messageContract echo).step s cl.msgs.1).2 = none := by
    simp only [messageContract]
    cases ht : cl.msgs.1.tov <;> simp only [replayTrigger, hnone, ht]
    rfl
  exact hout.trans (hstep _)

theorem echo_machine_at {n i k : Nat} :
    let m := messageRun echo pick ring id capacity clock sched
    let a := messageRun echo pick ring id capacity clock (sched.take k)
    m.stage = 3 * n → (accepted m.events).length < 2 ^ 64 → a.stage = 3 * i →
      a.mem.state.machine = .counted (logged (m.mem.log.take i)).length := by
  intro m a hstage hfew hi
  have hlength : a.mem.log.length = i :=
    length_messageRun echo pick ring id capacity clock (sched.take k) hi
  have hpre := Dag.log_isPrefix (messages echo).dag pick
    (.start (FsmTask.default echo) ring id)
    (TransportDriver.spawnWith (Chan.fresh capacity) clock) (sched.take k) (sched.drop k)
  obtain ⟨ls, hevents, -⟩ := Dag.events_append (messages echo).dag pick
    (.start (FsmTask.default echo) ring id)
    (TransportDriver.spawnWith (Chan.fresh capacity) clock) (sched.take k) (sched.drop k)
  rw [List.take_append_drop] at hpre hevents
  change a.mem.log <+: m.mem.log at hpre
  change m.events = a.events ++ ls at hevents
  have hfirst : m.mem.log.take i = a.mem.log := by
    rw [List.prefix_iff_eq_take.mp hpre, hlength]
  rw [hevents, accepted_append, List.length_append] at hfew
  rw [hfirst]
  exact (echo_answers pick ring id capacity clock (sched.take k) hi
    (Nat.lt_of_le_of_lt (Nat.le_add_right _ _) hfew)).1

/-- An iteration that heard nothing sends nothing and leaves the machine as it was. -/
theorem echo_silent_iteration {n i : Nat} :
    let run := messageRun echo pick ring id capacity clock
    let m := run sched
    m.stage = 3 * n → (accepted m.events).length < 2 ^ 64 → i < n → heard m.hist i = false →
      (∀ j, j < 3 → sent (calls (m.ofStage (3 * i + j))) = []) ∧
      ∀ k k', (run (sched.take k)).stage = 3 * i → (run (sched.take k')).stage = 3 * (i + 1) →
        (run (sched.take k')).mem.state.machine = (run (sched.take k)).mem.state.machine := by
  intro run m hstage hfew hi hsilent
  have hlength : m.mem.log.length = n :=
    length_messageRun echo pick ring id capacity clock sched hstage
  obtain ⟨cl, hcl⟩ : ∃ cl, m.mem.log[i]? = some cl :=
    ⟨_, List.getElem?_eq_getElem (by omega)⟩
  have hnone : cl.msgs.1.payload = none := by
    have heq := heard_eq echo pick ring id capacity clock sched hstage hcl
    change heard m.hist i = _ at heq
    rw [hsilent] at heq
    exact Option.not_isSome_iff_eq_none.mp (Bool.eq_false_iff.mp heq.symm)
  refine ⟨?_, ?_⟩
  · intro j hj
    obtain ⟨-, -, hstages⟩ :=
      message_sends echo pick ring id capacity clock sched echo_emitsAtMostOnce hstage
    obtain ⟨h0, h1, h2⟩ := hstages i cl hcl
    rw [echo_silent pick ring id capacity clock sched hstage hcl hnone] at h2
    match j, hj with
    | 0, _ => exact h0
    | 1, _ => exact h1
    | 2, _ => exact h2
  · intro k k' hk hk'
    have hsame : logged (m.mem.log.take (i + 1)) = logged (m.mem.log.take i) := by
      rw [List.take_add_one, hcl]
      simp [logged, hnone]
    rw [echo_machine_at pick ring id capacity clock sched hstage hfew hk,
      echo_machine_at pick ring id capacity clock sched hstage hfew hk']
    exact congrArg (fun msgs => EchoMachine.counted msgs.length) hsame

/-- **The echo service, end to end.** After `n` iterations of any run with fewer than `2 ^ 64`
messages, let `d` be the number of iterations that heard a message. Then

* an iteration heard a message exactly if one was queued when it made its one receive attempt,
* the service has sent the echoes of the first `d` messages accepted, under the numbers from 1
  on, in order, and nothing else; while the transport holds its receiver they have been
  delivered, and no task has returned an error,
* the store has counted `d` messages,
* and an iteration that heard nothing has sent nothing and left the machine as it was. -/
theorem echo_end_to_end {n : Nat}
    (hstage : (messageRun echo pick ring id capacity clock sched).stage = 3 * n)
    (hfew : (accepted (messageRun echo pick ring id capacity clock sched).events).length <
      2 ^ 64) :
    let run := messageRun echo pick ring id capacity clock
    let m := run sched
    let d := (List.range n).countP (heard m.hist)
    (∀ i, i < n → ∃ pre r post, m.hist = pre ++ (3 * i, Event.attempt r) :: post ∧
      (∀ r', (3 * i, Event.attempt r') ∉ pre ++ post) ∧
      ∃ k, (run (sched.take k)).hist = pre ∧
        (heard m.hist i = true ↔ (run (sched.take k)).world.inbound.queue ≠ [])) ∧
    d ≤ (accepted m.events).length ∧
    sent m.calls = echoes 0 ((accepted m.events).take d) ∧
    (m.world.outbound.rx = true →
      delivered m.calls = echoes 0 ((accepted m.events).take d) ∧
        ∀ r ∈ m.mem.results, r = .ok ()) ∧
    m.mem.state.machine = .counted d ∧
    ∀ i, i < n → heard m.hist i = false →
      (∀ j, j < 3 → sent (calls (m.ofStage (3 * i + j))) = []) ∧
      ∀ k k', (run (sched.take k)).stage = 3 * i → (run (sched.take k')).stage = 3 * (i + 1) →
        (run (sched.take k')).mem.state.machine = (run (sched.take k)).mem.state.machine := by
  intro run m d
  have hd : (logged m.mem.log).length = d :=
    length_logged_heard echo pick ring id capacity clock sched hstage
  have hfirst : logged m.mem.log <+: accepted m.events :=
    logged_accepted echo pick ring id capacity clock sched hstage
  have htake : logged m.mem.log = (accepted m.events).take d := by
    rw [← hd]
    exact List.prefix_iff_eq_take.mp hfirst
  obtain ⟨hmachine, hanswers⟩ := echo_answers pick ring id capacity clock sched hstage hfew
  obtain ⟨hsent, hdelivered, -⟩ :=
    message_sends echo pick ring id capacity clock sched echo_emitsAtMostOnce hstage
  have hsent' : sent m.calls = echoes 0 ((accepted m.events).take d) := by
    rw [← htake]
    exact hsent.trans hanswers
  refine ⟨?_, ?_, hsent', ?_, ?_, ?_⟩
  · intro i hi
    exact message_attempt echo pick ring id capacity clock sched hstage hi
  · rw [← hd]
    exact hfirst.length_le
  · intro hrx
    obtain ⟨hall, hok⟩ := hdelivered hrx
    exact ⟨hall.trans hsent', hok⟩
  · rw [← hd]
    exact hmachine
  · intro i hi hsilent
    exact echo_silent_iteration pick ring id capacity clock sched hstage hfew hi hsilent

end Runs

/-- An iteration that finds nothing, and one that finds a message. -/
def helloRun : Moment EchoMsg EchoMsg (FsmTask EchoMachine) (Slots EchoMsg EchoMsg) :=
  messageRun echo (fun _ => 0) (fun _ => (.new none, .new none)) 5 none 40
    (List.replicate 5 .move ++ .env (.send ⟨"hello"⟩) :: List.replicate 7 .move)

theorem echo_end_to_end_hello : sent helloRun.calls = [⟨"echo 1: hello"⟩] := by
  have hstage : helloRun.stage = 3 * 2 := rfl
  have haccepted : accepted helloRun.events = [⟨"hello"⟩] := by decide
  have hfew : (accepted helloRun.events).length < 2 ^ 64 := by
    rw [haccepted]
    decide
  have hd : (List.range 2).countP (heard helloRun.hist) = 1 := by decide
  obtain ⟨-, -, hsent, -⟩ := echo_end_to_end _ _ _ _ _ _ hstage hfew
  change sent helloRun.calls = echoes 0 ((accepted helloRun.events).take
    ((List.range 2).countP (heard helloRun.hist))) at hsent
  rw [haccepted, hd] at hsent
  exact hsent

end Msrs
