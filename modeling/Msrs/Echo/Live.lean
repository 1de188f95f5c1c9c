import Msrs.Echo.Feeder

/-!
# The live run of the echo service

`run_live`: `main` iterates the runtime beside the transport, drops the application, collects the
echoes and waits for the transport.

* `live_echoes` — what `main` returns are the first echoes, whatever the order of the moves and
  whoever times out; and all of them, if nobody does and every input was read.
* `returns_echoes` — under any scheduler that lets both threads move again and again, `main` does
  return.
-/

namespace Msrs

open Interleave Fifo

/-- The threads of the service at a moment. -/
abbrev FeederPool : Type :=
  Pool EchoParty (ThreadOp EchoParty EchoMsg EchoMsg String) (ThreadOp.Res EchoParty.Result)
    EchoParty.Kept EchoParty.Result (Process EchoParty String)

/-- A moment of the whole service. -/
abbrev FeederMoment : Type :=
  ProcessMoment EchoParty EchoParty.Kept EchoParty.Result EchoMsg EchoMsg String
    (FsmTask EchoMachine) (Slots EchoMsg EchoMsg)

namespace Feeder

variable {target : TargetOs} {rt : RtConfig} {inputs : List String} {p p' : FeederPool}
  {w : Bridge EchoMsg EchoMsg} {ls : List (Event EchoMsg EchoMsg)} {i : EchoParty}
  {e : Option (Act EchoMsg EchoMsg)}

/-! ## Who has called what -/

theorem calls_of_cur (h : (program target rt inputs).threads.Follows p)
    {o : ThreadOp EchoParty EchoMsg EchoMsg String}
    {k : o.Res EchoParty.Result → FeederCode (i.Kept ⊕ i.Result)} (hcur : p.cur i = .call o k) :
    Calls i o :=
  (h.allowed within_first within_again).2 i o k hcur

/-- What `main` does not do is read off the calls of the driver. -/
theorem of_driver (h : (program target rt inputs).threads.Follows p) {β : Type}
    {g : FeederCall → Option β} (hg : ∀ c, Calls .main c.1 → g c = none) :
    (threadCalls p).filterMap g = (callsOf .driver p.trace).filterMap g :=
  h.filterMap_calls within_first within_again .driver fun i c hi hcalls => by
    cases i with
    | driver => exact absurd rfl hi
    | main => exact hg c hcalls

theorem offered_driver (h : (program target rt inputs).threads.Follows p) :
    offered (threadCalls p) = offered (callsOf .driver p.trace) :=
  of_driver h fun c hcalls => by
    obtain ⟨o, r⟩ := c
    cases o <;> first | rfl | exact hcalls.elim

theorem taken_driver (h : (program target rt inputs).threads.Follows p) :
    taken (threadCalls p) = taken (callsOf .driver p.trace) :=
  of_driver h fun c hcalls => by
    obtain ⟨o, r⟩ := c
    cases o <;> first | rfl | exact hcalls.elim

theorem forwarded_driver (h : (program target rt inputs).threads.Follows p) :
    forwarded (threadCalls p) = forwarded (callsOf .driver p.trace) :=
  of_driver h fun c hcalls => by
    obtain ⟨o, r⟩ := c
    cases o <;> first | rfl | exact hcalls.elim

/-- What the driver has moved, as its transport sees it. -/
theorem moved (h : (program target rt inputs).threads.Follows p) :
    ∃ n ds q, (run inputs).At n ds q ∧
      (p.cur .driver = q ∨ ∃ o k, p.cur .driver = .call (.rt o) k) ∧
      ds ⊆ callsOf .driver p.trace ∧ offered (threadCalls p) = offered ds ∧
      taken (threadCalls p) = taken ds ∧ forwarded (threadCalls p) = forwarded ds := by
  obtain ⟨ds, q, hrun, hq, hsub, hoffered, htaken, hforwarded⟩ :=
    TransportDriver.moved_thread (h.at_cur .driver)
  exact ⟨_, ds, q, hrun, hq, hsub, (offered_driver h).trans hoffered,
    (taken_driver h).trans htaken, (forwarded_driver h).trans hforwarded⟩

theorem driver_rounds (h : (program target rt inputs).threads.Follows p) :
    p.rounds .driver = 0 := by
  obtain ⟨ds, q, hrun, -⟩ := TransportDriver.moved_thread (h.at_cur .driver)
  exact (driver_at hrun).1

theorem collected_main (h : (program target rt inputs).threads.Follows p) :
    collected (threadCalls p) = collected (callsOf .main p.trace) := by
  refine h.filterMap_calls within_first within_again .main fun i c hi hcalls => ?_
  obtain ⟨o, r⟩ := c
  cases i with
  | driver => cases o <;> first | rfl | exact hcalls.elim
  | main => exact absurd rfl hi

/-! ## Their ends -/

theorem driver_holds (h : (program target rt inputs).Running w ls p) :
    (w.outbound.rx = true ∨ ∃ r, p.ended .driver = some r) ∧
      (p.shared.results.tx = false ↔ ∃ r, p.ended .driver = some r) := by
  refine ⟨?_, h.holds.results.trans ⟨fun hended => ?_, fun hended => ?_⟩⟩
  · by_cases hrx : w.outbound.rx = true
    · exact Or.inl hrx
    · obtain ⟨i, r, htakes, hr⟩ := h.holds.rx ((Bool.not_eq_true _).mp hrx)
      cases i with
      | driver => exact Or.inr ⟨r, hr⟩
      | main => cases htakes
  · obtain ⟨i, r, hholds, hr⟩ := hended
    obtain rfl : i = .driver := of_decide_eq_true hholds
    exact ⟨r, hr⟩
  · obtain ⟨r, hr⟩ := hended
    exact ⟨.driver, r, rfl, hr⟩

theorem driver_end (h : (program target rt inputs).Running w ls p) {r : Except String Unit}
    (hended : p.ended .driver = some r) :
    forwarded (threadCalls p) = (taken (threadCalls p)).map EchoMsg.body ∧
      ((r = .ok () ∧ (taken (threadCalls p)).length = inputs.length) ∨
        (∃ e, r = .error e ∧ (offered (threadCalls p)).length < inputs.length ∧
          ∃ m, ⟨.send m, .error e⟩ ∈ callsOf .driver p.trace) ∨
        (r = .error "timed out waiting for echo" ∧
          (taken (threadCalls p)).length < inputs.length ∧
          ∃ e, ⟨.recv (some 5000), .error e⟩ ∈ threadCalls p)) := by
  obtain ⟨n, ds, q, hrun, hq, hsub, hoffered, htaken, hforwarded⟩ := moved h.follows
  have hret := h.follows.ended .driver r hended
  obtain rfl : .ret (.inr r) = q := by
    rcases hq with heq | ⟨o, k, hcall⟩
    · exact hret.symm.trans heq
    · cases hret.symm.trans hcall
  obtain ⟨hall, hends⟩ := driver_inr hrun fun v r' hv =>
    h.attended.calls ⟨.forward v, r'⟩ (mem_threadCalls (hsub hv))
  rw [hoffered, htaken, hforwarded]
  refine ⟨hall, ?_⟩
  rcases hends with hok | ⟨e, hr, hlt, m, hm⟩ | ⟨hr, hlt, e, he⟩
  · exact Or.inl hok
  · exact Or.inr (Or.inl ⟨e, hr, hlt, m, hsub hm⟩)
  · exact Or.inr (Or.inr ⟨hr, hlt, e, mem_threadCalls (hsub he)⟩)

theorem main_end (h : (program target rt inputs).Running w ls p) {live : List String}
    (hended : p.ended .main = some live) :
    collected (threadCalls p) = live ∧ live.length ≤ inputs.length ∧
      (∃ r, p.ended .driver = some r) ∧
      (live.length = inputs.length ∨
        ∃ e, ⟨.takeTimeout 2000, .error e⟩ ∈ threadCalls p) := by
  have hat := h.follows.at_cur .main
  rw [h.follows.ended .main live hended] at hat
  obtain ⟨hcollected, hle, ⟨r, hjoin⟩, hends⟩ := main_inr hat
  refine ⟨(collected_main h.follows).trans hcollected, hle,
    ⟨r, h.attended.calls _ (mem_threadCalls hjoin)⟩, ?_⟩
  rcases hends with hlen | ⟨e, he⟩
  · exact Or.inl hlen
  · exact Or.inr ⟨e, mem_threadCalls he⟩

/-- If `main` was told that the driver is gone there is no further result. -/
def Emptied (p : FeederPool) : Prop :=
  ∀ ms, ⟨.takeTimeout ms, .error .disconnected⟩ ∈ threadCalls p →
    p.shared.results.queue = [] ∧ ∃ r, p.ended .driver = some r

theorem Emptied.moves (hemptied : Emptied p) (h : (program target rt inputs).Running w ls p)
    (hmoves : (program target rt inputs).threads.Moves w p i p' e) : Emptied p' := by
  have hstays {r : Except String Unit} := hmoves.monotone.1 .driver r
  cases hmoves with
  | stay | round s _ _ => exact hemptied
  | exit r _ _ =>
    intro ms hmem
    obtain ⟨hnil, r', hr'⟩ := hemptied ms hmem
    obtain ⟨hresults, -, -⟩ := (program target rt inputs).exit_shared i r p.shared
    exact ⟨hresults.trans hnil, r', hstays hr'⟩
  | @call o d k r x e hrunning hcur hperform =>
    obtain ⟨-, hanswer⟩ := Program.answer_of_perform hperform
    obtain ⟨-, -, hresults⟩ := ThreadOp.answer_law hanswer
    have hcalls := calls_of_cur h.follows hcur
    intro ms hmem
    rw [threadCalls_record, List.mem_append, List.mem_singleton] at hmem
    rcases hmem with hmem | hlast
    · -- The driver has ended, and nobody else forwards.
      obtain ⟨hnil, r', hr'⟩ := hemptied ms hmem
      refine ⟨?_, r', hr'⟩
      have hnone : forwarded [(⟨o, r⟩ : FeederCall)] = [] := by
        cases i with
        | driver => exact absurd (hrunning.symm.trans hr') (by simp)
        | main => cases o <;> first | rfl | exact hcalls.elim
      rw [hnil, hnone] at hresults
      exact (List.append_eq_nil_iff.mp hresults.symm).2
    · cases hlast
      obtain ⟨hnil, htx⟩ := ThreadOp.answer_takeTimeout hanswer
      exact ⟨hnil, (driver_holds h).2.mp (htx rfl)⟩

/-! ## `run_live` -/

section Runs

variable (pick : Nat → Nat) (ring : Nat → Slots EchoMsg EchoMsg) (id : UInt64) (target : TargetOs)
  (rt : RtConfig) (inputs : List String) (capacity : Capacity) (clock : Nat)
  (turns : List (Threads.Turn EchoParty Decision Nat))

/-- The service while `main` iterates the runtime. -/
def live : FeederMoment :=
  (program target rt inputs).run (messages echo).dag pick (.start (FsmTask.default echo) ring id)
    (TransportDriver.spawnWith (Chan.fresh capacity) clock) turns

/-- The service after `main` has dropped the application. -/
def closing (later : List (Threads.Turn EchoParty Decision Nat)) : FeederMoment :=
  (program target rt inputs).afterDrop (messages echo).dag pick
    (live pick ring id target rt inputs capacity clock turns) later

theorem serving_live : (program target rt inputs).Serving
    (live pick ring id target rt inputs capacity clock turns).loop.world
    (Moment.events (live pick ring id target rt inputs capacity clock turns).loop)
    (live pick ring id target rt inputs capacity clock turns).pool :=
  (program target rt inputs).serving_run _ pick _ capacity clock turns

theorem emptied_live : Emptied (live pick ring id target rt inputs capacity clock turns).pool := by
  refine ((program target rt inputs).threads.run_track (bridge EchoMsg EchoMsg)
    ((messages echo).dag.stage pick)
    (J := fun w ls p => (program target rt inputs).Running w ls p ∧ Emptied p) ?_
    (fun _ _ _ _ o h => ⟨h.1.call o, h.2⟩) (fun _ _ _ t h => ⟨h.1.ambient t, h.2⟩)
    (fun _ _ _ _ _ _ h hmoves => ⟨h.1.moves hmoves, h.2.moves h.1 hmoves⟩)).2
  exact ⟨(serving_live pick ring id target rt inputs capacity clock []).toRunning,
    fun ms hms => absurd hms (by simp [threadCalls, Threads.start])⟩

variable {later : List (Threads.Turn EchoParty Decision Nat)}

theorem ending_closing (hrest : ∀ t ∈ later, t ≠ .loop) :
    let c := closing pick ring id target rt inputs capacity clock turns later
    (program target rt inputs).Closing c.loop.world (Moment.events c.loop) c.pool ∧
      Emptied c.pool :=
  (program target rt inputs).threads.run_track (bridge EchoMsg EchoMsg)
    ((messages echo).dag.stage pick)
    (J := fun w ls p => (program target rt inputs).Closing w ls p ∧ Emptied p)
    ⟨(serving_live pick ring id target rt inputs capacity clock turns).dropApplication,
      emptied_live pick ring id target rt inputs capacity clock turns⟩
    (fun hmem => absurd rfl (hrest _ hmem)) (fun _ _ _ t h => ⟨h.1.ambient t, h.2⟩)
    (fun _ _ _ _ _ _ h hmoves => ⟨h.1.moves hmoves, h.2.moves h.1.toRunning hmoves⟩)

/-- What the runtime has done between two iterations: it has read the first inputs, and sent their
echoes. -/
theorem live_answers {n : Nat} (hfew : inputs.length < 2 ^ 64) :
    let m := live pick ring id target rt inputs capacity clock turns
    m.loop.stage = 3 * n →
      logged m.loop.mem.log <+: inputs.map .new ∧
      (logged m.loop.mem.log).length ≤ (offered (threadCalls m.pool)).length ∧
      m.loop.mem.log.flatMap (fun cl => cl.msgs.2.payload.toList) =
        echoes 0 (logged m.loop.mem.log) ∧
      sent m.loop.calls = echoes 0 (logged m.loop.mem.log) ∧
      delivered m.loop.calls <+: sent m.loop.calls ∧
      (m.loop.world.outbound.rx = true → delivered m.loop.calls = sent m.loop.calls) := by
  intro m hstage
  have hserving : (program target rt inputs).Serving m.loop.world (Moment.events m.loop) m.pool :=
    serving_live pick ring id target rt inputs capacity clock turns
  obtain ⟨sched, hloop⟩ : ∃ sched, m.loop = messageRun echo pick ring id capacity clock sched :=
    (program target rt inputs).run_loop (messages echo).dag pick _ _ turns
  clear_value m
  obtain ⟨k, ds, q, hrun, -, -, hoffered, -⟩ := moved hserving.follows
  have hinputs := (driver_moves hrun).1
  rw [← hoffered, hserving.exchanged.inbound] at hinputs
  rw [hserving.exchanged.inbound]
  rw [hloop] at hinputs hstage ⊢
  have hlegal := Dag.legal_run (messages echo).dag pick (.start (FsmTask.default echo) ring id)
    (TransportDriver.spawnWith (Chan.fresh capacity) clock) sched
  have hlogged := logged_accepted echo pick ring id capacity clock sched hstage
  obtain ⟨-, hanswers⟩ := echo_answers pick ring id capacity clock sched hstage
    (Nat.lt_of_le_of_lt (by simpa using hinputs.length_le) hfew)
  obtain ⟨hsent, -, -⟩ :=
    message_sends echo pick ring id capacity clock sched echo_emitsAtMostOnce hstage
  exact ⟨hlogged.trans hinputs, hlogged.length_le, hanswers, hsent.trans hanswers,
    delivered_isPrefix_sent hlegal, delivered_eq_sent hlegal⟩

theorem length_echoes (n : Nat) (msgs : List EchoMsg) : (echoes n msgs).length = msgs.length := by
  simp [echoes]

theorem echoes_isPrefix {n : Nat} {msgs msgs' : List EchoMsg} (h : msgs <+: msgs') :
    echoes n msgs <+: echoes n msgs' := by
  obtain ⟨rest, rfl⟩ := h
  rw [echoes, echoes, List.zipIdx_append, List.map_append]
  exact List.prefix_append _ _

/-- If no wait has timed out and every input was read, a driver that has ended has taken an echo for
each input. -/
theorem driver_patient {n : Nat} (hfew : inputs.length < 2 ^ 64) (hrest : ∀ t ∈ later, t ≠ .loop)
    {r : Except String Unit} :
    let m := live pick ring id target rt inputs capacity clock turns
    let c := closing pick ring id target rt inputs capacity clock turns later
    m.loop.stage = 3 * n → c.pool.ended .driver = some r →
      (∀ x ∈ threadCalls c.pool, ¬ x.TimedOut) →
      (logged m.loop.mem.log).length = inputs.length →
      r = .ok () ∧ (taken (threadCalls c.pool)).length = inputs.length := by
  intro m c hstage hdriver hpatient hlogged
  have hserving : (program target rt inputs).Serving m.loop.world (Moment.events m.loop) m.pool :=
    serving_live pick ring id target rt inputs capacity clock turns
  obtain ⟨hclosing, -⟩ : (program target rt inputs).Closing c.loop.world
      (Moment.events c.loop) c.pool ∧ Emptied c.pool :=
    ending_closing pick ring id target rt inputs capacity clock turns hrest
  have hcalls : c.loop.calls = m.loop.calls := Program.calls_afterDrop _ pick m hrest
  have hearlier : threadCalls m.pool <+: threadCalls c.pool :=
    Program.threadCalls_afterDrop _ pick m later
  have hkept {r : Except String Unit} (hr : m.pool.ended .driver = some r) :
      c.pool.ended .driver = some r :=
    (program target rt inputs).threads.ended_run (bridge EchoMsg EchoMsg)
      ((messages echo).dag.stage pick) (m := (program target rt inputs).dropApplication m) hr later
  obtain ⟨-, hread, -, hsent, -, hall⟩ : _ ∧
      (logged m.loop.mem.log).length ≤ (offered (threadCalls m.pool)).length ∧ _ ∧
      sent m.loop.calls = echoes 0 (logged m.loop.mem.log) ∧ _ ∧
      (m.loop.world.outbound.rx = true → delivered m.loop.calls = sent m.loop.calls) :=
    live_answers pick ring id target rt inputs capacity clock turns hfew hstage
  clear_value m c
  have hlength : (sent m.loop.calls).length = inputs.length := by
    rw [hsent, length_echoes, hlogged]
  obtain ⟨-, hends⟩ := driver_end hclosing.toRunning hdriver
  rcases hends with hok | ⟨-, -, hlt, -⟩ | ⟨hr, hlt, e, he⟩
  · exact hok
  · have hoffered : (offered (threadCalls m.pool)).length ≤ _ :=
      (hearlier.filterMap ThreadCall.offered?).length_le
    change _ ≤ (offered (threadCalls c.pool)).length at hoffered
    omega
  · cases e with
    | timeout => exact absurd rfl (hpatient _ he)
    | disconnected =>
      -- All that was delivered was received, and while the driver waits nothing is refused.
      have hout := hclosing.exchanged.outbound
      change delivered c.loop.calls = _ at hout
      rw [hcalls, hclosing.drained _ he, List.append_nil] at hout
      rcases (driver_holds hserving.toRunning).1 with hrx | ⟨r₀, hr₀⟩
      · rw [hall hrx] at hout
        rw [← hout, hlength] at hlt
        exact absurd hlt (Nat.lt_irrefl _)
      obtain rfl : r₀ = r := Option.some.inj ((hkept hr₀).symm.trans hdriver)
      obtain ⟨-, hbefore⟩ := driver_end hserving.toRunning hr₀
      rcases hbefore with ⟨hok, -⟩ | ⟨-, -, hlt₀, -⟩ | ⟨-, -, e, he₀⟩
      · cases hok.symm.trans hr
      · omega
      · cases e with
        | timeout => exact absurd rfl (hpatient _ (hearlier.subset he₀))
        | disconnected => exact absurd he₀ (hserving.told _)

/-- **`main` returns the first echoes.** Whatever the order of the moves while `main` iterates the
runtime and after it has dropped the application, and whoever times out: if `main` returns, then it
returns the first of the echoes sent. If no wait has timed out and every input was read, it returns
one for each input, and the driver has ended without an error. -/
theorem live_echoes {n : Nat} (hfew : inputs.length < 2 ^ 64) (hrest : ∀ t ∈ later, t ≠ .loop)
    {bodies : List String} :
    let m := live pick ring id target rt inputs capacity clock turns
    let c := closing pick ring id target rt inputs capacity clock turns later
    m.loop.stage = 3 * n → c.pool.ended .main = some bodies →
      bodies <+: (sent m.loop.calls).map EchoMsg.body ∧ bodies.length ≤ inputs.length ∧
      ((∀ x ∈ threadCalls c.pool, ¬ x.TimedOut) →
        (logged m.loop.mem.log).length = inputs.length →
        bodies.length = inputs.length ∧ c.pool.ended .driver = some (.ok ())) := by
  intro m c hstage hreturns
  obtain ⟨hclosing, hemptied⟩ : (program target rt inputs).Closing c.loop.world
      (Moment.events c.loop) c.pool ∧ Emptied c.pool :=
    ending_closing pick ring id target rt inputs capacity clock turns hrest
  have hcalls : c.loop.calls = m.loop.calls := Program.calls_afterDrop _ pick m hrest
  obtain ⟨-, -, -, -, hpre, -⟩ : _ ∧ _ ∧ _ ∧ _ ∧ delivered m.loop.calls <+: sent m.loop.calls ∧ _ :=
    live_answers pick ring id target rt inputs capacity clock turns hfew hstage
  obtain ⟨hcollected, hle, ⟨r, hdriver⟩, hends⟩ := main_end hclosing.toRunning hreturns
  have hpatiently : (∀ x ∈ threadCalls c.pool, ¬ x.TimedOut) →
      (logged m.loop.mem.log).length = inputs.length →
      r = .ok () ∧ (taken (threadCalls c.pool)).length = inputs.length :=
    driver_patient pick ring id target rt inputs capacity clock turns hfew hrest hstage hdriver
  clear_value m c
  obtain ⟨hforwarded, -⟩ := driver_end hclosing.toRunning hdriver
  have hresults := hclosing.exchanged.results
  rw [hcollected] at hresults
  refine ⟨?_, hle, fun hpatient hlogged => ?_⟩
  · have hbodies : bodies <+: forwarded (threadCalls c.pool) :=
      hresults ▸ List.prefix_append _ _
    have htaken : taken (threadCalls c.pool) <+: delivered m.loop.calls :=
      hcalls ▸ hclosing.exchanged.outbound ▸ List.prefix_append _ _
    rw [hforwarded] at hbodies
    exact hbodies.trans ((htaken.trans hpre).map EchoMsg.body)
  · obtain ⟨rfl, htaken⟩ := hpatiently hpatient hlogged
    refine ⟨?_, hdriver⟩
    rcases hends with hlen | ⟨e, he⟩
    · exact hlen
    · cases e with
      | timeout => exact absurd rfl (hpatient _ he)
      | disconnected =>
        obtain ⟨hnil, -⟩ := hemptied _ he
        rw [hnil, List.append_nil, hforwarded] at hresults
        rw [← hresults, List.length_map]
        exact htaken

/-- These are the first of the numbered echoes. If there is one for each input, then every input was
read, and the log holds these echoes. -/
theorem live_numbered {n : Nat} (hfew : inputs.length < 2 ^ 64) (hrest : ∀ t ∈ later, t ≠ .loop)
    {bodies : List String} :
    let m := live pick ring id target rt inputs capacity clock turns
    let c := closing pick ring id target rt inputs capacity clock turns later
    let all := (echoes 0 (inputs.map .new)).map EchoMsg.body
    m.loop.stage = 3 * n → c.pool.ended .main = some bodies →
      bodies <+: all ∧
      (bodies.length = inputs.length →
        bodies = all ∧ (logged m.loop.mem.log).length = inputs.length ∧
        (m.loop.mem.log.flatMap fun cl => cl.msgs.2.payload.toList).map EchoMsg.body = bodies) := by
  intro m c all hstage hreturns
  obtain ⟨hbodies, -⟩ : bodies <+: (sent m.loop.calls).map EchoMsg.body ∧ _ :=
    live_echoes pick ring id target rt inputs capacity clock turns hfew hrest hstage hreturns
  obtain ⟨hread, -, hanswers, hsent, -⟩ : logged m.loop.mem.log <+: inputs.map .new ∧ _ ∧
      m.loop.mem.log.flatMap (fun cl => cl.msgs.2.payload.toList) =
        echoes 0 (logged m.loop.mem.log) ∧
      sent m.loop.calls = echoes 0 (logged m.loop.mem.log) ∧ _ :=
    live_answers pick ring id target rt inputs capacity clock turns hfew hstage
  clear_value m
  have hlength (log : List EchoMsg) : ((echoes 0 log).map EchoMsg.body).length = log.length := by
    rw [List.length_map, length_echoes]
  rw [hsent] at hbodies
  have hfirst : bodies <+: all := hbodies.trans ((echoes_isPrefix hread).map EchoMsg.body)
  refine ⟨hfirst, fun hmany => ?_⟩
  have hall : bodies = all := hfirst.eq_of_length (by rw [hlength, List.length_map, hmany])
  -- As many bodies as inputs leave no room for a message that was not read.
  have hbodies' := hbodies.length_le
  have hread' := hread.length_le
  rw [hlength] at hbodies'
  have hlogged : logged m.loop.mem.log = inputs.map .new :=
    hread.eq_of_length (by rw [List.length_map] at hread' ⊢; omega)
  rw [hanswers, hlogged]
  exact ⟨hall, List.length_map _, hall.symm⟩

theorem ended_later {f : Nat → Threads.Turn EchoParty Decision Nat} {i : EchoParty} {r : i.Result}
    {k k' : Nat} (hle : k ≤ k')
    (h : (closing pick ring id target rt inputs capacity clock turns
      (Threads.turns f k)).pool.ended i = some r) :
    (closing pick ring id target rt inputs capacity clock turns
      (Threads.turns f k')).pool.ended i = some r :=
  Threads.ended_later hle h

/-- Under a scheduler that lets both threads move again and again the driver gets to its end, and
then `main`. -/
theorem main_returns {f : Nat → Threads.Turn EchoParty Decision Nat} (hrest : ∀ k, f k ≠ .loop)
    (hfair : ∀ i, Threads.Fair f i) :
    ∃ k r bodies, ∀ k', k ≤ k' →
      let c := closing pick ring id target rt inputs capacity clock turns (Threads.turns f k')
      c.pool.ended .driver = some r ∧ c.pool.ended .main = some bodies := by
  have hclosing (k : Nat) := ending_closing pick ring id target rt inputs capacity clock turns
    (Threads.forall_turns hrest k)
  obtain ⟨k₁, r, -, hdriverEnds⟩ := Threads.ends (i := EchoParty.driver) 0 0
    (fun k _ => (hclosing k).1.unblocked (hclosing k).1.driver
      (fun j _ hcur => (calls_of_cur (hclosing k).1.follows hcur).elim)
      (fun ms _ hcur => (calls_of_cur (hclosing k).1.follows hcur).elim))
    (fun k _ => Nat.le_of_eq (driver_rounds (hclosing k).1.follows)) (hfair .driver)
  obtain ⟨k₂, bodies, hle, hmainEnds⟩ := Threads.ends (i := EchoParty.main) k₁ (inputs.length + 1)
    (fun k hk => (hclosing k).1.unblocked (hclosing k).1.main
      (fun j _ hcur => by
        obtain rfl : j = .driver := calls_of_cur (hclosing k).1.follows hcur
        exact Option.isSome_of_mem (hdriverEnds k hk))
      (fun ms _ _ => (driver_holds (hclosing k).1.toRunning).2.mpr ⟨r, hdriverEnds k hk⟩))
    (fun k _ => main_rounds ((hclosing k).1.follows.at_cur .main)) (hfair .main)
  exact ⟨k₂, r, bodies, fun k' hk' => ⟨hdriverEnds k' (Nat.le_trans hle hk'), hmainEnds k' hk'⟩⟩

/-- **`run_live` returns the first echoes.** Let `main` drop the application between two iterations,
after any order of the moves of the runtime and the threads. Under any scheduler that lets both
threads move again and again the driver gets to its end, and then `main`: from some moment on it
has returned the first of the echoes `echo 1: ..`, `echo 2: ..` of the inputs, in order; and all of
them, with a driver that has ended without an error, if no wait has timed out until then and every
input was read. -/
theorem returns_echoes {n : Nat} (hfew : inputs.length < 2 ^ 64)
    {f : Nat → Threads.Turn EchoParty Decision Nat} (hrest : ∀ k, f k ≠ .loop)
    (hfair : ∀ i, Threads.Fair f i) :
    let m := live pick ring id target rt inputs capacity clock turns
    let c (k : Nat) := closing pick ring id target rt inputs capacity clock turns
      (Threads.turns f k)
    m.loop.stage = 3 * n → ∃ k r bodies,
      (∀ k', k ≤ k' → (c k').pool.ended .driver = some r ∧ (c k').pool.ended .main = some bodies) ∧
      bodies <+: (echoes 0 (inputs.map .new)).map EchoMsg.body ∧
      ((∀ x ∈ threadCalls (c k).pool, ¬ x.TimedOut) →
        (logged m.loop.mem.log).length = inputs.length →
        r = .ok () ∧ bodies = (echoes 0 (inputs.map .new)).map EchoMsg.body) := by
  intro m c hstage
  obtain ⟨k₂, r, bodies, hends⟩ :=
    main_returns pick ring id target rt inputs capacity clock turns hrest hfair
  obtain ⟨hdriver, hmain⟩ := hends k₂ (Nat.le_refl _)
  obtain ⟨-, -, hall⟩ := live_echoes pick ring id target rt inputs capacity clock turns hfew
    (Threads.forall_turns hrest k₂) hstage hmain
  obtain ⟨hfirst, hnumbered⟩ := live_numbered pick ring id target rt inputs capacity clock turns
    hfew (Threads.forall_turns hrest k₂) hstage hmain
  refine ⟨k₂, r, bodies, hends, hfirst, fun hpatient hlogged => ?_⟩
  obtain ⟨hmany, hok⟩ := hall hpatient hlogged
  exact ⟨Option.some.inj (hdriver.symm.trans hok), (hnumbered hmany).1⟩

end Runs

/-- Each thread in turn. -/
def roundRobin : Nat → Threads.Turn EchoParty Decision Nat := Threads.inTurn .driver [.main] .calm

theorem fair_roundRobin (i : EchoParty) : Threads.Fair roundRobin i :=
  Threads.fair_inTurn Decision.calm (by cases i <;> simp)

/-- Two inputs and two iterations, and then each thread in turn: `main` returns both echoes, and the
driver is gone. -/
theorem returns_echoes_hello :
    let closing := closing (fun _ => 0) (fun _ => (.new none, .new none)) 7 .linux .normal
      ["hello", "world"] none 0
      ([.thread .driver .calm, .thread .driver .calm] ++ List.replicate 14 .loop)
    ∃ k, ∀ k', k ≤ k' →
      (closing (Threads.turns roundRobin k')).pool.ended .driver = some (.ok ()) ∧
      (closing (Threads.turns roundRobin k')).pool.ended .main =
        some ["echo 1: hello", "echo 2: world"] := by
  intro closing
  obtain ⟨k, r, bodies, hends, -⟩ := returns_echoes (fun _ => 0) (fun _ => (.new none, .new none)) 7
    .linux .normal ["hello", "world"] none 0
    ([.thread .driver .calm, .thread .driver .calm] ++ List.replicate 14 .loop) (n := 2)
    (by decide) (fun k hloop => by cases hloop) fair_roundRobin rfl
  have hdriver : (closing (Threads.turns roundRobin 20)).pool.ended .driver = some (.ok ()) := rfl
  have hmain : (closing (Threads.turns roundRobin 20)).pool.ended .main =
      some ["echo 1: hello", "echo 2: world"] := rfl
  have hlater {i : EchoParty} {a : i.Result} := ended_later (f := roundRobin) (i := i) (r := a)
    (fun _ => 0) (fun _ => (.new none, .new none)) 7 .linux .normal ["hello", "world"] none 0
    ([.thread .driver .calm, .thread .driver .calm] ++ List.replicate 14 .loop)
    (Nat.le_add_left 20 k)
  obtain ⟨hdriver', hmain'⟩ := hends (k + 20) (Nat.le_add_right _ _)
  obtain rfl := Option.some.inj (hdriver'.symm.trans (hlater hdriver))
  obtain rfl := Option.some.inj (hmain'.symm.trans (hlater hmain))
  exact ⟨k, hends⟩

end Feeder

end Msrs
