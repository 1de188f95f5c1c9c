import Msrs.Echo.Live
import Msrs.Runtime.Liveness

/-!
# Every echo arrives

The echo service under a scheduler that lets the runtime and the driver move again and again, on a
channel of any capacity, while the driver does not give up waiting: it gets all its inputs into the
DAG and receives an echo for each. From then on `main` may drop the application at any moment, and
`run_live` returns all of them (`answers_all`).
-/

namespace Msrs

open Interleave Fifo

namespace Feeder

variable {target : TargetOs} {rt : RtConfig} {inputs : List String} {p p' : FeederPool}
  {w : Bridge EchoMsg EchoMsg} {i : EchoParty} {e : Option (Act EchoMsg EchoMsg)}

/-! ## Where the driver stands -/

theorem offered_isPrefix (h : (program target rt inputs).threads.Follows p) :
    offered (threadCalls p) <+: inputs.map .new := by
  obtain ⟨n, ds, q, hrun, -, -, hoffered, -⟩ := moved h
  exact hoffered ▸ (driver_moves hrun).1

/-- While the driver waits for an echo, it has offered all inputs, and an echo is missing. -/
theorem waiting (h : (program target rt inputs).threads.Follows p) {ms : Option Nat}
    {k : Except RecvTimeoutError EchoMsg → FeederCode _}
    (hcur : p.cur .driver = .call (.recv ms) k) :
    offered (threadCalls p) = inputs.map .new ∧ (taken (threadCalls p)).length < inputs.length := by
  obtain ⟨n, ds, q, hrun, hq, -, hoffered, htaken, -⟩ := moved h
  rw [hoffered, htaken]
  rcases hq with hq | ⟨o, k', hcall⟩
  · rw [hcur] at hq
    subst hq
    exact driver_recv hrun
  · cases hcur.symm.trans hcall

/-! ## `main` waits until it drops the application -/

/-- `main` has done nothing yet. -/
def MainWaits (p : FeederPool) : Prop :=
  p.shared.started .main = false ∧ callsOf .main p.trace = []

theorem MainWaits.moves (hwaits : MainWaits p) (h : (program target rt inputs).threads.Follows p)
    (hmoves : (program target rt inputs).threads.Moves w p i p' e) : MainWaits p' := by
  cases hmoves with
  | stay | round s _ _ => exact hwaits
  | exit r _ _ =>
    obtain ⟨-, -, hstarted⟩ := (program target rt inputs).exit_shared i r p.shared
    exact ⟨(congrFun hstarted _).trans hwaits.1, hwaits.2⟩
  | call d k r x e _ hcur hperform =>
    obtain ⟨hi, hanswer⟩ := Program.answer_of_perform hperform
    have hne : i ≠ .main := by
      rintro rfl
      cases hwaits.1.symm.trans hi
    refine ⟨?_, ?_⟩
    · by_contra hmain
      rcases ThreadOp.answer_started hanswer ((Bool.not_eq_false _).mp hmain) with hstarted | rfl
      · cases hwaits.1.symm.trans hstarted
      · have hcalls := calls_of_cur h hcur
        cases i <;> exact hcalls.elim
    · simp [Pool.record, callsOf_of_ne hne, hwaits.2]

/-- The driver has ended, and if a wait of `main` failed there is no further result. -/
def Spent (p : FeederPool) : Prop :=
  (∃ r, p.ended .driver = some r) ∧
    ∀ ms err, ⟨.takeTimeout ms, .error err⟩ ∈ threadCalls p → p.shared.results.queue = []

theorem Spent.moves (hspent : Spent p) (h : (program target rt inputs).threads.Follows p)
    (hmoves : (program target rt inputs).threads.Moves w p i p' e) : Spent p' := by
  obtain ⟨⟨r₀, hdriver⟩, hempty⟩ := hspent
  refine ⟨⟨r₀, hmoves.monotone.1 .driver r₀ hdriver⟩, ?_⟩
  cases hmoves with
  | stay | round s _ _ => exact hempty
  | exit r _ _ =>
    intro ms err hmem
    exact ((program target rt inputs).exit_shared i r p.shared).1.trans (hempty ms err hmem)
  | @call o d k r x e hrunning hcur hperform =>
    obtain ⟨-, hanswer⟩ := Program.answer_of_perform hperform
    obtain ⟨-, -, hresults⟩ := ThreadOp.answer_law hanswer
    have hcalls := calls_of_cur h hcur
    intro ms err hmem
    rw [threadCalls_record, List.mem_append, List.mem_singleton] at hmem
    rcases hmem with hmem | hlast
    · have hnone : forwarded [(⟨o, r⟩ : FeederCall)] = [] := by
        cases i with
        | driver => cases hrunning.symm.trans hdriver
        | main => cases o <;> first | rfl | exact hcalls.elim
      rw [hempty ms err hmem, hnone] at hresults
      exact (List.append_eq_nil_iff.mp hresults.symm).2
    · cases hlast
      exact (ThreadOp.answer_takeTimeout hanswer).1

/-- A driver that has ended without an error has handed a body for each input to `main`. -/
theorem length_forwarded {ls : List (Event EchoMsg EchoMsg)}
    (h : (program target rt inputs).Running w ls p) (hended : p.ended .driver = some (.ok ())) :
    (forwarded (threadCalls p)).length = inputs.length := by
  obtain ⟨hforwarded, hends⟩ := driver_end h hended
  rw [hforwarded, List.length_map]
  rcases hends with ⟨-, hlen⟩ | ⟨e, hr, -⟩ | ⟨hr, -⟩
  · exact hlen
  · cases hr
  · cases hr

section Runs

variable (pick : Nat → Nat) (ring : Nat → Slots EchoMsg EchoMsg) (id : UInt64) (target : TargetOs)
  (rt : RtConfig) (inputs : List String) (capacity : Capacity) (clock : Nat)

theorem mainWaits_live (turns : List (Threads.Turn EchoParty Decision Nat)) :
    MainWaits (live pick ring id target rt inputs capacity clock turns).pool :=
  ((program target rt inputs).threads.run_pool (bridge EchoMsg EchoMsg)
    ((messages echo).dag.stage pick)
    (J := fun p => (program target rt inputs).threads.Follows p ∧ MainWaits p)
    ⟨Threads.follows_start _, rfl, rfl⟩
    (fun _ _ _ _ _ h hmoves => ⟨h.1.moves hmoves, h.2.moves h.1 hmoves⟩) turns).2

/-- If the driver has ended before `main` drops the application, and without an error, then what
`main` returns is all that was handed to it. -/
theorem returns_forwarded {turns later : List (Threads.Turn EchoParty Decision Nat)}
    (hrest : ∀ t ∈ later, t ≠ .loop) {bodies : List String} :
    let m := live pick ring id target rt inputs capacity clock turns
    let c := closing pick ring id target rt inputs capacity clock turns later
    m.pool.ended .driver = some (.ok ()) → c.pool.ended .main = some bodies →
      bodies = forwarded (threadCalls m.pool) := by
  intro m c hdriver hreturns
  have hserving : (program target rt inputs).Serving m.loop.world (Moment.events m.loop) m.pool :=
    serving_live pick ring id target rt inputs capacity clock turns
  obtain ⟨hclosing, -⟩ : (program target rt inputs).Closing c.loop.world (Moment.events c.loop)
      c.pool ∧ Emptied c.pool :=
    ending_closing pick ring id target rt inputs capacity clock turns hrest
  have hearlier : threadCalls m.pool <+: threadCalls c.pool :=
    Program.threadCalls_afterDrop _ pick m later
  have hwaits : MainWaits m.pool :=
    mainWaits_live pick ring id target rt inputs capacity clock turns
  have hspent : Spent c.pool := by
    refine ((program target rt inputs).threads.run_pool (bridge EchoMsg EchoMsg)
      ((messages echo).dag.stage pick) (m := (program target rt inputs).dropApplication m)
      (J := fun p => (program target rt inputs).threads.Follows p ∧ Spent p)
      ⟨hserving.dropApplication.follows, ⟨.ok (), hdriver⟩, fun ms err hmem => ?_⟩
      (fun _ _ _ _ _ h hmoves => ⟨h.1.moves hmoves, h.2.moves h.1 hmoves⟩) later).2
    -- `main` has waited for nothing yet.
    obtain ⟨⟨i, x⟩, htrace, hx⟩ := List.mem_map.mp hmem
    obtain rfl : x = ⟨.takeTimeout ms, .error err⟩ := hx
    have hcalls := (hserving.follows.allowed within_first within_again).1 i _ htrace
    cases i with
    | driver => exact hcalls.elim
    | main =>
      have hnone : callsOf EchoParty.main m.pool.trace = [] := hwaits.2
      exact absurd (mem_callsOf.mpr htrace) (hnone ▸ List.not_mem_nil)
  have hkept : c.pool.ended .driver = some (.ok ()) :=
    (program target rt inputs).threads.ended_run (bridge EchoMsg EchoMsg)
      ((messages echo).dag.stage pick) (m := (program target rt inputs).dropApplication m)
      hdriver later
  clear_value m c
  have hsame : forwarded (threadCalls c.pool) = forwarded (threadCalls m.pool) := by
    refine ((hearlier.filterMap ThreadCall.forwarded?).eq_of_length ?_).symm
    exact (length_forwarded hserving.toRunning hdriver).trans
      (length_forwarded hclosing.toRunning hkept).symm
  obtain ⟨hcollected, -, -, hends⟩ := main_end hclosing.toRunning hreturns
  have hresults := hclosing.exchanged.results
  rw [hcollected] at hresults
  rw [← hsame, hresults]
  rcases hends with hlen | ⟨err, hmem⟩
  · have hlength := length_forwarded hclosing.toRunning hkept
    rw [hresults, List.length_append] at hlength
    rw [List.length_eq_zero_iff.mp (by omega : c.pool.shared.results.queue.length = 0),
      List.append_nil]
  · rw [hspent.2 _ err hmem, List.append_nil]

variable {f : Nat → Threads.Turn EchoParty Decision Nat} {n : Nat}

theorem moment_eq_live : (program target rt inputs).moment .ingressTask (.fsmTask echo) .egressTask
    pick ring id capacity clock f n =
      live pick ring id target rt inputs capacity clock (Threads.turns f n) := rfl

theorem live_add (k : Nat) :
    live pick ring id target rt inputs capacity clock (Threads.turns f (n + k)) =
      (program target rt inputs).threads.run (bridge EchoMsg EchoMsg)
        ((messages echo).dag.stage pick)
        (live pick ring id target rt inputs capacity clock (Threads.turns f n))
        (Threads.turns (fun l => f (n + l)) k) :=
  Program.moment_add .ingressTask (.fsmTask echo) .egressTask pick ring id capacity clock n k

/-- Once all inputs are accepted, their echoes are delivered as long as the driver runs. -/
theorem echoes_delivered (hfew : inputs.length < 2 ^ 64) (hloop : Threads.LoopFair f)
    (hall : ∀ n', n ≤ n' → offered (threadCalls
      (live pick ring id target rt inputs capacity clock (Threads.turns f n')).pool) =
        inputs.map .new)
    (hrunning : ∀ n', n ≤ n' →
      (live pick ring id target rt inputs capacity clock (Threads.turns f n')).pool.ended .driver =
        none) :
    ∃ n', n ≤ n' ∧ delivered
      (live pick ring id target rt inputs capacity clock (Threads.turns f n')).loop.calls =
        echoes 0 (inputs.map .new) := by
  have hserving (n' : Nat) : (program target rt inputs).Serving _ _ _ :=
    serving_live pick ring id target rt inputs capacity clock (Threads.turns f n')
  obtain ⟨n₁, hle, hhanded⟩ := Program.handed_all (P := program target rt inputs) .ingressTask
    (.fsmTask echo) .egressTask pick ring id capacity clock (n := n) hloop fun n' hn' =>
      (hserving n').exchanged.inbound.symm.trans
        (((hall n' hn').trans (hall n (Nat.le_refl n)).symm).trans (hserving n).exchanged.inbound)
  obtain ⟨k, hstage⟩ := Threads.reaches_stage (program target rt inputs).threads
    (bridge EchoMsg EchoMsg) ((messages echo).dag.stage pick)
    (live pick ring id target rt inputs capacity clock (Threads.turns f n₁)) (hloop.drop n₁)
    (k := 3 * ((live pick ring id target rt inputs capacity clock
      (Threads.turns f n₁)).loop.stage + 1)) (by omega)
  rw [← live_add] at hstage
  refine ⟨n₁ + k, by omega, ?_⟩
  obtain ⟨-, hslots⟩ := hhanded (n₁ + k) (Nat.le_add_right n₁ k) (by
    rw [moment_eq_live]
    omega)
  rw [moment_eq_live] at hslots
  obtain ⟨-, -, -, hsent, -, hdelivered⟩ :=
    live_answers pick ring id target rt inputs capacity clock _ hfew hstage
  have hlogged : logged (live pick ring id target rt inputs capacity clock
      (Threads.turns f (n₁ + k))).loop.mem.log = inputs.map .new := by
    rw [← hall (n₁ + k) (by omega), (hserving (n₁ + k)).exchanged.inbound, ← hslots,
      Pipeline.handed, if_neg (by omega), List.append_nil, List.flatMap_map]
    rfl
  rw [hdelivered ?_, hsent, hlogged]
  rcases (driver_holds (hserving (n₁ + k)).toRunning).1 with hrx | ⟨r, hr⟩
  · exact hrx
  · cases (hrunning (n₁ + k) (by omega)).symm.trans hr

/-- The driver does not wait for an echo for good: all its inputs are accepted by then, and while
one echo is missing another one comes. -/
theorem recv_released (hfew : inputs.length < 2 ^ 64) (hloop : Threads.LoopFair f)
    {ms : Option Nat} {k : Except RecvTimeoutError EchoMsg → FeederCode _}
    (hrunning : (live pick ring id target rt inputs capacity clock
      (Threads.turns f n)).pool.ended .driver = none)
    (hcur : (live pick ring id target rt inputs capacity clock
      (Threads.turns f n)).pool.cur .driver = .call (.recv ms) k) :
    Threads.Released (program target rt inputs).threads (bridge EchoMsg EchoMsg)
      ((messages echo).dag.stage pick)
      (live pick ring id target rt inputs capacity clock (Threads.turns f n))
      (fun l => f (n + l)) .driver := by
  have hserving (n' : Nat) : (program target rt inputs).Serving _ _ _ :=
    serving_live pick ring id target rt inputs capacity clock (Threads.turns f n')
  obtain ⟨hall, hmissing⟩ := waiting (hserving n).follows hcur
  refine Program.released_of_answer .ingressTask (.fsmTask echo) .egressTask pick ring id capacity
    clock (hserving n).driver hcur fun hstays => ?_
  have htrace {n n' : Nat} (h : n ≤ n') := Program.trace_moment (P := program target rt inputs)
    (f := f) .ingressTask (.fsmTask echo) .egressTask pick ring id capacity clock h
  obtain ⟨n₁, hle, hdelivered⟩ := echoes_delivered pick ring id target rt inputs capacity clock
    (n := n) hfew hloop (fun n' hn' => by
      refine (offered_isPrefix (hserving n').follows).eq_of_length_le ?_
      rw [← hall]
      exact (((htrace hn').map Prod.snd).filterMap ThreadCall.offered?).length_le)
    (fun n' hn' => (hstays n' hn').ended.trans hrunning)
  refine ⟨n₁, hle, fun n' hn' d => ?_⟩
  have hlater := (Program.delivered_moment (P := program target rt inputs) (f := f) .ingressTask
    (.fsmTask echo) .egressTask pick ring id capacity clock hn').length_le
  simp only [moment_eq_live] at hstays hlater ⊢
  rw [ThreadOp.answer, Option.isSome_map]
  refine Chan.await_isSome_of_ne_nil (fun hnil => ?_) _
  have hout : delivered (live pick ring id target rt inputs capacity clock
      (Threads.turns f n')).loop.calls = _ := (hserving n').exchanged.outbound
  rw [hnil, List.append_nil, taken_driver (hserving n').follows,
    (hstays n' (Nat.le_trans hle hn')).calls, ← taken_driver (hserving n).follows] at hout
  rw [hdelivered, hout, length_echoes, List.length_map] at hlater
  omega

theorem driver_freed (hfew : inputs.length < 2 ^ 64) (hloop : Threads.LoopFair f) :
    Threads.Freed (program target rt inputs).threads (bridge EchoMsg EchoMsg)
      ((messages echo).dag.stage pick)
      (live pick ring id target rt inputs capacity clock []) f .driver := by
  intro n
  change Threads.Released _ _ _
    (live pick ring id target rt inputs capacity clock (Threads.turns f n)) _ _
  have hserving (n' : Nat) : (program target rt inputs).Serving _ _ _ :=
    serving_live pick ring id target rt inputs capacity clock (Threads.turns f n')
  cases hended : (live pick ring id target rt inputs capacity clock
      (Threads.turns f n)).pool.ended .driver with
  | some r => exact .of_idle fun hrunning => absurd (hrunning.symm.trans hended) (by simp)
  | none =>
    cases hcur : (live pick ring id target rt inputs capacity clock
        (Threads.turns f n)).pool.cur .driver with
    | ret a => exact .of_idle fun _ => ⟨a, hcur⟩
    | call o k =>
      have hcalls := calls_of_cur (hserving n).follows hcur
      cases o with
      | rt o | forward v =>
        exact Program.released_of_answer .ingressTask (.fsmTask echo) .egressTask pick ring id
          capacity clock (hserving n).driver hcur fun _ => ⟨n, Nat.le_refl n, fun _ _ _ => rfl⟩
      | recv ms =>
        exact recv_released pick ring id target rt inputs capacity clock hfew hloop hended hcur
      | send m =>
        refine Program.send_released .ingressTask (.fsmTask echo) .egressTask pick ring id capacity
          clock hloop (hserving n).driver hcur fun n' _ j hj => ?_
        cases j with
        | driver => exact absurd rfl hj
        | main =>
          have hwaits (n : Nat) :=
            (mainWaits_live pick ring id target rt inputs capacity clock (Threads.turns f n)).2
          exact congrArg offered ((hwaits n').trans (hwaits n).symm)
      | _ => exact hcalls.elim

theorem driver_succeeds (hfew : inputs.length < 2 ^ 64) (hloop : Threads.LoopFair f)
    (hfair : Threads.Fair f .driver) (hpatient : ∀ n, Patient (f n)) :
    ∃ n, ∀ n', n ≤ n' → (live pick ring id target rt inputs capacity clock
      (Threads.turns f n')).pool.ended .driver = some (.ok ()) := by
  have hserving (n : Nat) : (program target rt inputs).Serving _ _ _ :=
    serving_live pick ring id target rt inputs capacity clock (Threads.turns f n)
  obtain ⟨n, r, hends⟩ := Threads.ends_of_freed 0
    (driver_freed pick ring id target rt inputs capacity clock hfew hloop)
    (fun n => Nat.le_of_eq (driver_rounds (hserving n).follows)) hfair
  obtain rfl : r = .ok () := by
    have hended : (live pick ring id target rt inputs capacity clock
        (Threads.turns f n)).pool.ended .driver = some r := hends n (Nat.le_refl n)
    rcases (driver_end (hserving n).toRunning hended).2 with ⟨hr, -⟩ | ⟨e, -, -, m, hm⟩ |
      ⟨-, -, e, he⟩
    · exact hr
    · -- Only the driver holds the sender.
      obtain ⟨j, r', hne, htakes, -⟩ := (connected_run (program target rt inputs) _ pick _ capacity
        clock (Threads.turns f n)).refused _ _ _ (mem_callsOf.mp hm)
      cases j with
      | driver => exact absurd rfl hne
      | main => cases htakes
    · cases e with
      | timeout =>
        have hnone : ∀ c ∈ threadCalls (live pick ring id target rt inputs capacity clock
            (Threads.turns f n)).pool, ¬ c.TimedOut :=
          patient_run (Threads.forall_turns hpatient n) (by simp [threadCalls, Threads.start])
        exact absurd rfl (hnone _ he)
      | disconnected => exact absurd he ((hserving n).told _)
  exact ⟨n, hends⟩

theorem forwarded_echoes (hfew : inputs.length < 2 ^ 64) (hloop : Threads.LoopFair f)
    (hended : (live pick ring id target rt inputs capacity clock
      (Threads.turns f n)).pool.ended .driver = some (.ok ())) :
    forwarded (threadCalls (live pick ring id target rt inputs capacity clock
      (Threads.turns f n)).pool) = (echoes 0 (inputs.map .new)).map EchoMsg.body := by
  have hserving : (program target rt inputs).Serving _ _ _ :=
    serving_live pick ring id target rt inputs capacity clock (Threads.turns f n)
  obtain ⟨hforwarded, -⟩ := driver_end hserving.toRunning hended
  have hlength := length_forwarded hserving.toRunning hended
  rw [hforwarded, List.length_map] at hlength
  -- The end of an iteration to come
  obtain ⟨k, hstage⟩ := Threads.reaches_stage (program target rt inputs).threads
    (bridge EchoMsg EchoMsg) ((messages echo).dag.stage pick)
    (live pick ring id target rt inputs capacity clock (Threads.turns f n)) (hloop.drop n)
    (k := 3 * (live pick ring id target rt inputs capacity clock
      (Threads.turns f n)).loop.stage) (by omega)
  rw [← live_add] at hstage
  obtain ⟨hlogged, -, -, hsent, hdelivered, -⟩ :=
    live_answers pick ring id target rt inputs capacity clock _ hfew hstage
  rw [hsent] at hdelivered
  have hlater := Program.delivered_moment (P := program target rt inputs) (f := f) .ingressTask
    (.fsmTask echo) .egressTask pick ring id capacity clock (Nat.le_add_right n k)
  have htaken : taken (threadCalls (live pick ring id target rt inputs capacity clock
      (Threads.turns f n)).pool) <+: delivered (live pick ring id target rt inputs capacity clock
        (Threads.turns f n)).loop.calls :=
    hserving.exchanged.outbound ▸ List.prefix_append _ _
  have hpre := htaken.trans (hlater.trans (hdelivered.trans (echoes_isPrefix hlogged)))
  rw [hforwarded, hpre.eq_of_length]
  rw [hlength, length_echoes, List.length_map]

/-- **Every echo arrives.** On a channel of any capacity, under any scheduler that lets the runtime
and the driver move again and again, and as long as the driver does not give up waiting: from some
moment on the driver has ended without an error and has handed to `main` the echo of each input, in
order. And whenever from then on `main` drops the application, then under any scheduler that lets
both threads move again and again, whoever gives up waiting, `run_live` returns all of them. -/
theorem answers_all (hfew : inputs.length < 2 ^ 64) (hloop : Threads.LoopFair f)
    (hfair : Threads.Fair f .driver) (hpatient : ∀ n, Patient (f n)) :
    ∃ n, ∀ n', n ≤ n' →
      let m := live pick ring id target rt inputs capacity clock (Threads.turns f n')
      let all := (echoes 0 (inputs.map .new)).map EchoMsg.body
      m.pool.ended .driver = some (.ok ()) ∧ forwarded (threadCalls m.pool) = all ∧
      ∀ g : Nat → Threads.Turn EchoParty Decision Nat, (∀ k, g k ≠ .loop) →
        (∀ i, Threads.Fair g i) → ∃ k, ∀ k', k ≤ k' →
          (closing pick ring id target rt inputs capacity clock (Threads.turns f n')
            (Threads.turns g k')).pool.ended .main = some all := by
  obtain ⟨n, hends⟩ :=
    driver_succeeds pick ring id target rt inputs capacity clock hfew hloop hfair hpatient
  refine ⟨n, fun n' hn' => ?_⟩
  have hended := hends n' hn'
  have hforwarded :=
    forwarded_echoes pick ring id target rt inputs capacity clock hfew hloop hended
  refine ⟨hended, hforwarded, fun g hrest hfair => ?_⟩
  obtain ⟨k, r, bodies, hreturns⟩ := main_returns pick ring id target rt inputs capacity clock
    (Threads.turns f n') hrest hfair
  obtain rfl := returns_forwarded pick ring id target rt inputs capacity clock
    (Threads.forall_turns hrest k) hended (hreturns k (Nat.le_refl k)).2
  exact ⟨k, fun k' hk' => hforwarded ▸ (hreturns k' hk').2⟩

end Runs

/-- The driver and the runtime in turn. -/
def inTurn (n : Nat) : Threads.Turn EchoParty Decision Nat :=
  if n % 2 = 0 then .thread .driver .calm else .loop

/-- Two inputs on a channel for one message. -/
theorem answers_all_hello :
    ∃ n, ∀ n', n ≤ n' → forwarded (threadCalls (live (fun _ => 0)
      (fun _ => (.new none, .new none)) 7 .linux .normal ["hello", "world"]
      (some ⟨1, Nat.one_pos⟩) 0 (Threads.turns inTurn n')).pool) =
        ["echo 1: hello", "echo 2: world"] := by
  have hloop : Threads.LoopFair inTurn := fun n => ⟨2 * n + 1, by omega, if_neg (by omega)⟩
  have hfair : Threads.Fair inTurn .driver := fun n => ⟨2 * n, by omega, .calm, if_pos (by omega)⟩
  have hpatient (n : Nat) : Patient (inTurn n) := by
    unfold inTurn
    split_ifs <;> trivial
  obtain ⟨n, hn⟩ := answers_all (fun _ => 0) (fun _ => (.new none, .new none)) 7 .linux .normal
    ["hello", "world"] (some ⟨1, Nat.one_pos⟩) 0 (by decide) hloop hfair hpatient
  exact ⟨n, fun n' hn' => (hn n' hn').2.1⟩

end Feeder

end Msrs
