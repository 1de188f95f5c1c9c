import Msrs.Runtime.Shutdown
import Msrs.Runtime.Backpressure

/-!
# While `main` iterates

A service beside the threads of its transport, under a scheduler that lets the runtime and the
threads move again and again.

* `settles` — once nothing more is accepted, everything accepted is handed to the machine, and what
  it emits is delivered.
* `send_returns` — a blocking send into a full channel does not wait for ever: it returns, or a
  message of another thread is accepted in the meantime.
-/

namespace Msrs

open Interleave Fifo

variable {T U S A B : Type} (ingress : Ingress T A) (adapter : Adapter A S B)
  (egress : Egress U B) (pick : Nat → Nat) (ring : Nat → Slots A B) (id : UInt64)
  (w : Bridge T U) (sched later : Schedule T U)

/-! ## An iteration and the inbound channel -/

/-- A moment and a later one, between which an iteration has begun and its ingress task has run:
there was a receive attempt in between. -/
theorem attempt_between {j : Nat} :
    let m := serviceRun ingress adapter egress pick ring id w sched
    let m' := serviceRun ingress adapter egress pick ring id w (sched ++ later)
    m.stage < 3 * j → 3 * j < m'.stage → ∃ pre r post,
      m'.events = m.events ++ (pre ++ Event.attempt r :: post) ∧
      (bridge T U).Legal m.world (pre ++ Event.attempt r :: post) m'.world := by
  intro m m' hbefore hafter
  have hrun : m' = (bridge T U).run _ m later :=
    serviceRun_append ingress adapter egress pick ring id sched w later
  obtain ⟨h, hhist, hlegal⟩ := Shared.run_extends (bridge T U)
    ((service ingress adapter egress).dag.stage pick) m later
  rw [← hrun] at hhist hlegal
  obtain ⟨pre, r, post, hcut⟩ :=
    exists_attempt ingress adapter egress pick ring id (sched ++ later) w hafter
  have hmem : (3 * j, Event.attempt r) ∈ m.hist ++ h := by
    rw [← hhist]
    exact hcut ▸ List.mem_append_right _ List.mem_cons_self
  rcases List.mem_append.mp hmem with hold | hnew
  · have hle : 3 * j ≤ m.stage := Shared.le_stage (bridge T U) _ _ w sched _ hold
    omega
  · obtain ⟨pre', post', rfl⟩ := List.append_of_mem hnew
    refine ⟨pre'.map Prod.snd, r, post'.map Prod.snd, ?_, ?_⟩
    · simp [Moment.events, hhist]
    · simpa using hlegal

/-- If nothing was accepted in the meantime, the inbound queue has become shorter, or is empty. -/
theorem drains_between {j : Nat} :
    let m := serviceRun ingress adapter egress pick ring id w sched
    let m' := serviceRun ingress adapter egress pick ring id w (sched ++ later)
    m.stage < 3 * j → 3 * j < m'.stage → accepted m'.events = accepted m.events →
      m'.world.inbound.queue = [] ∨
        m'.world.inbound.queue.length < m.world.inbound.queue.length := by
  intro m m' hbefore hafter hsame
  obtain ⟨pre, r, post, hevents, hlegal⟩ :=
    attempt_between ingress adapter egress pick ring id w sched later hbefore hafter
  change m'.events = m.events ++ _ at hevents
  change (bridge T U).Legal m.world _ m'.world at hlegal
  clear_value m m'
  rw [hevents, accepted_append] at hsame
  have hnone := List.append_right_eq_self.mp hsame
  have hlaw := queue_law hlegal
  rw [hnone, List.append_nil] at hlaw
  by_cases hrecv : received (calls (pre ++ Event.attempt r :: post)) = []
  · -- The attempt failed, so the channel was empty then, and it is now.
    left
    obtain ⟨v, hpre, hr, -⟩ := ((bridge T U).legal_append _ _ _ _).mp hlegal
    have hpre' := queue_law hpre
    rw [accepted_append] at hnone
    rw [calls_append, received_append] at hrecv
    obtain ⟨hnopre, hattempt⟩ := List.append_eq_nil_iff.mp hrecv
    rw [(List.append_eq_nil_iff.mp hnone).1, List.append_nil, hnopre, List.nil_append] at hpre'
    have hempty : v.inbound.queue = [] := by
      cases r with
      | ok x => cases hattempt
      | error e => exact (Chan.tryRecv_error hr).1
    rw [hpre', hempty] at hlaw
    exact (List.append_eq_nil_iff.mp hlaw.symm).2
  · right
    have hlength := congrArg List.length hlaw
    rw [List.length_append] at hlength
    have hpos := List.length_pos_iff.mpr hrecv
    omega

/-- If the inbound queue is empty and nothing is accepted any more, everything accepted has been
handed over when the next iterations end. -/
theorem handed_later :
    let m := serviceRun ingress adapter egress pick ring id w sched
    let m' := serviceRun ingress adapter egress pick ring id w (sched ++ later)
    w.inbound.queue = [] → m.world.inbound.queue = [] → accepted m'.events = accepted m.events →
      m.stage < m'.stage → m'.stage % 3 = 0 →
      m'.world.inbound.queue = [] ∧
        (Pipeline.handed m'.stage m'.mem).flatMap ingress.arrivals = accepted m'.events := by
  intro m m' hw hempty hsame hlt hmod
  have hrun : m' = (bridge T U).run _ m later :=
    serviceRun_append ingress adapter egress pick ring id sched w later
  obtain ⟨h, hhist, hlegal⟩ := Shared.run_extends (bridge T U)
    ((service ingress adapter egress).dag.stage pick) m later
  rw [← hrun] at hhist hlegal
  have href : Pipeline.Refines (serviceContract ingress adapter egress) adapter.default m' :=
    service_refines ingress adapter egress pick ring id (sched ++ later) hw
  have hle (x) (hx : x ∈ m.hist) : x.1 ≤ m.stage := Shared.le_stage (bridge T U) _ _ w sched x hx
  clear_value m m'
  have hevents : m'.events = m.events ++ h.map Prod.snd := by simp [Moment.events, hhist]
  rw [hevents, accepted_append] at hsame
  have hlaw := queue_law hlegal
  rw [hempty, List.append_right_eq_self.mp hsame] at hlaw
  obtain ⟨hnone, hempty'⟩ := List.append_eq_nil_iff.mp hlaw.symm
  refine ⟨hempty', ?_⟩
  -- The iteration under way has begun since, and since then nothing was there to receive.
  have hinflight : Pipeline.inflight (serviceContract ingress adapter egress) m' = [] := by
    rw [Pipeline.inflight, if_pos hmod, Shared.Config.ofStage, hhist, Shared.labelsOf_append,
      Shared.labelsOf_eq_nil fun x hx => Nat.ne_of_lt (Nat.lt_of_le_of_lt (hle x hx) hlt),
      List.nil_append]
    have hsub : (received (calls (Shared.labelsOf h m'.stage))).Sublist
        (received (calls (h.map Prod.snd))) :=
      ((List.filter_sublist.map Prod.snd).filterMap Label.call?).filterMap IoCall.received?
    rw [hnone] at hsub
    exact List.sublist_nil.mp hsub
  have hall := href.accepted
  rw [hinflight, hempty', List.append_nil, List.append_nil] at hall
  exact hall.symm

/-! ## Who can still send -/

/-- A thread that ends so drops the sender of its messages. -/
def Drops.takesTx : Drops → Bool
  | .txIn | .both _ => true
  | .nothing | .rxOut => false

theorem Drops.tx_acted {dr : Drops} (h : ¬ dr.takesTx = true) (w : Bridge T U) :
    (Threads.acted (bridge T U) w dr.act).inbound.tx = w.inbound.tx := by
  cases dr with
  | nothing | rxOut => rfl
  | txIn | both r => exact absurd rfl h

section Connected

variable {ι : Type} {K R : ι → Type} {V M : Type} [DecidableEq ι] {P : Program ι K R T U V}

theorem ThreadOp.answer_inbound {w : Bridge T U} {x x' : Process ι V}
    {ended : ∀ j, Option (R j)} {d : Decision} {o : ThreadOp ι T U V} {r : o.Res R}
    {e : Option (Act T U)} (h : o.answer w x ended d = some (r, x', e)) :
    (Threads.acted (bridge T U) w e).inbound.tx = w.inbound.tx := by
  have hoffer (m : T) : (w.offer m).2.inbound.tx = w.inbound.tx := by
    unfold Bridge.offer
    by_cases htx : w.inbound.tx = true
    · rw [if_pos htx]
      exact Chan.tx_trySend _ _
    · rw [if_neg htx]
  cases o with
  | rt o | sleep ms | forward v | take | spawn j =>
    cases h
    rfl
  | send m | trySend m =>
    unfold answer at h
    split_ifs at h <;> cases h <;> first | rfl | exact hoffer m
  | recv timeoutMs =>
    obtain ⟨r', -, hr'⟩ := Option.map_eq_some_iff.mp h
    cases r' <;> cases hr' <;> rfl
  | takeTimeout ms | join j =>
    obtain ⟨r', -, hr'⟩ := Option.map_eq_some_iff.mp h
    cases hr'
    rfl

/-- The DAG is there, the sender is gone only once a thread that held it has ended, and a send was
refused only if that was another thread. -/
structure Connected (P : Program ι K R T U V) (w : Bridge T U)
    (p : Pool ι (ThreadOp ι T U V) (ThreadOp.Res R) K R (Process ι V)) : Prop where
  rx : w.inbound.rx = true
  tx : w.inbound.tx = false → ∃ j r, (P.drops j r).takesTx = true ∧ p.ended j = some r
  refused : ∀ i m e, (i, ⟨.send m, .error e⟩) ∈ p.trace →
    ∃ j r, j ≠ i ∧ (P.drops j r).takesTx = true ∧ p.ended j = some r

theorem Connected.moves {w : Bridge T U} {i : ι} {e : Option (Act T U)}
    {p p' : Pool ι (ThreadOp ι T U V) (ThreadOp.Res R) K R (Process ι V)} (h : Connected P w p)
    (hmoves : P.threads.Moves w p i p' e) :
    Connected P (Threads.acted (bridge T U) w e) p' := by
  have hrx : (Threads.acted (bridge T U) w e).inbound.rx = true := by
    cases e with
    | none => exact h.rx
    | some e => exact (w.inbound_act e).2.trans h.rx
  have hearlier (i : ι) (m : T) (err : String) (hmem : (i, ⟨.send m, .error err⟩) ∈ p.trace) :
      ∃ j r, j ≠ i ∧ (P.drops j r).takesTx = true ∧ p'.ended j = some r := by
    obtain ⟨j, r, hne, hj, hr⟩ := h.refused i m err hmem
    exact ⟨j, r, hne, hj, hmoves.monotone.1 j r hr⟩
  cases hmoves with
  | stay | round s _ _ => exact ⟨hrx, h.tx, hearlier⟩
  | exit r hrunning _ =>
    refine ⟨hrx, fun htx => ?_, hearlier⟩
    by_cases htakes : (P.drops i r).takesTx = true
    · exact ⟨i, r, htakes, Function.update_self _ _ _⟩
    · obtain ⟨j, r', hj, hr'⟩ := h.tx ((Drops.tx_acted htakes w).symm.trans htx)
      have hne : j ≠ i := by
        rintro rfl
        cases hrunning.symm.trans hr'
      exact ⟨j, r', hj, (Function.update_of_ne hne _ _).trans hr'⟩
  | @call o d k r x e hrunning _ hperform =>
    obtain ⟨-, hanswer⟩ := Program.answer_of_perform hperform
    refine ⟨hrx, fun htx => h.tx ((ThreadOp.answer_inbound hanswer).symm.trans htx), ?_⟩
    intro i' m err hmem
    rcases List.mem_append.mp hmem with hmem | hlast
    · exact hearlier i' m err hmem
    · -- The thread that is refused runs, and its channel has lost an end.
      cases List.mem_singleton.mp hlast
      obtain ⟨j, r, hj, hr⟩ := h.tx (by
        by_contra htx
        rw [ThreadOp.answer, if_pos ⟨(Bool.not_eq_false _).mp htx, h.rx⟩] at hanswer
        split_ifs at hanswer
        cases hanswer)
      refine ⟨j, r, ?_, hj, hr⟩
      rintro rfl
      cases hrunning.symm.trans hr

theorem connected_run {C σ : Type} (P : Program ι K R T U V) (D : Dag T U σ C)
    (pick : Nat → Nat) (rt : Runtime σ C) (capacity : Capacity) (clock : Nat)
    (turns : List (Threads.Turn ι Decision Nat)) :
    let m := P.run D pick rt (TransportDriver.spawnWith (Chan.fresh capacity) clock) turns
    Connected P m.loop.world m.pool := by
  refine P.threads.run_track (bridge T U) (D.stage pick) (J := fun w _ p => Connected P w p) ?_
    (fun _ w _ p o h => ⟨(w.inbound_handle o).2.trans h.rx,
      fun htx => h.tx ((w.ends_handle o).1.symm.trans htx), h.refused⟩)
    (fun w _ p t h => ⟨h.rx, h.tx, h.refused⟩) (fun _ _ _ _ _ _ h hmoves => h.moves hmoves)
  refine ⟨rfl, fun htx => ?_, fun i m e hmem => absurd hmem List.not_mem_nil⟩
  cases htx

/-- Nobody waits for long enough to give up. -/
def Patient : Threads.Turn ι Decision Nat → Prop
  | .thread _ d => d.giveUp = false
  | _ => True

theorem patient_run {m : System (Op T U) Op.Res (Act T U) Bool (Bridge T U) M ι (ThreadOp ι T U V)
      (ThreadOp.Res R) K R (Process ι V)} {body : Nat → M → Io T U M}
    {turns : List (Threads.Turn ι Decision Nat)} (hturns : ∀ t ∈ turns, Patient t)
    (h0 : ∀ c ∈ threadCalls m.pool, ¬ c.TimedOut) :
    ∀ c ∈ threadCalls (P.threads.run (bridge T U) body m turns).pool, ¬ c.TimedOut := by
  refine P.threads.run_calls (bridge T U) body h0 fun i d w x ended o r x' e hturn hperform => ?_
  have hpatient : d.giveUp = false := hturns _ hturn
  obtain ⟨-, hanswer⟩ := Program.answer_of_perform hperform
  cases o with
  | recv timeoutMs =>
    rintro rfl
    obtain ⟨r', hawait, hr'⟩ := Option.map_eq_some_iff.mp hanswer
    cases r' with
    | ok v => cases hr'
    | error e' =>
      cases hr'
      simpa [hpatient] using (Chan.await_error hawait).2 rfl
  | takeTimeout ms =>
    rintro rfl
    obtain ⟨r', hawait, hr'⟩ := Option.map_eq_some_iff.mp hanswer
    cases hr'
    simpa [hpatient] using (Chan.await_error hawait).2 rfl
  | rt | sleep | send | trySend | forward | take | spawn | join => exact id

end Connected

/-! ## Runs that go on -/

/-- The threads that have made further calls have got no further message accepted. -/
theorem offered_same {ι : Type} {K R : ι → Type} {V : Type} [DecidableEq ι]
    {p p' : Pool ι (ThreadOp ι T U V) (ThreadOp.Res R) K R (Process ι V)}
    (htrace : p.trace <+: p'.trace)
    (h : ∀ j, offered (callsOf j p'.trace) = offered (callsOf j p.trace)) :
    offered (threadCalls p') = offered (threadCalls p) := by
  obtain ⟨later, hlater⟩ := htrace
  have hnone : offered (later.map Prod.snd) = [] := by
    apply List.filterMap_eq_nil_iff.mpr
    intro c hc
    obtain ⟨⟨j, c'⟩, hmem, rfl⟩ := List.mem_map.mp hc
    have hj := h j
    rw [← hlater, callsOf_append, offered_append] at hj
    exact List.filterMap_eq_nil_iff.mp (List.append_right_eq_self.mp hj) c' (mem_callsOf.mpr hmem)
  rw [threadCalls, ← hlater, List.map_append, offered_append, hnone, List.append_nil]
  rfl

section Runs

variable {ι : Type} {K R : ι → Type} {V : Type} [DecidableEq ι] (P : Program ι K R T U V)
  (capacity : Capacity) (clock : Nat) (f : Nat → Threads.Turn ι Decision Nat)

/-- The service and its transport after `n` turns. -/
def Program.moment (n : Nat) : ProcessMoment ι K R T U V S (Slots A B) :=
  P.run (service ingress adapter egress).dag pick (.start adapter.default ring id)
    (TransportDriver.spawnWith (Chan.fresh capacity) clock) (Threads.turns f n)

namespace Program

variable {P f}

theorem moment_add (n k : Nat) :
    P.moment ingress adapter egress pick ring id capacity clock f (n + k) =
      P.threads.run (bridge T U) ((service ingress adapter egress).dag.stage pick)
        (P.moment ingress adapter egress pick ring id capacity clock f n)
        (Threads.turns (fun l => f (n + l)) k) := by
  rw [moment, run, Threads.turns_add, Threads.run_append]
  rfl

theorem moment_loop (n k : Nat) : ∃ sched later,
    (P.moment ingress adapter egress pick ring id capacity clock f n).loop =
        serviceRun ingress adapter egress pick ring id
          (TransportDriver.spawnWith (Chan.fresh capacity) clock) sched ∧
      (P.moment ingress adapter egress pick ring id capacity clock f (n + k)).loop =
        serviceRun ingress adapter egress pick ring id
          (TransportDriver.spawnWith (Chan.fresh capacity) clock) (sched ++ later) := by
  obtain ⟨sched, hloop⟩ := P.run_loop (service ingress adapter egress).dag pick
    (.start adapter.default ring id) (TransportDriver.spawnWith (Chan.fresh capacity) clock)
    (Threads.turns f n)
  obtain ⟨later, hlater, -⟩ := P.threads.run_loop (bridge T U)
    ((service ingress adapter egress).dag.stage pick)
    (P.moment ingress adapter egress pick ring id capacity clock f n)
    (Threads.turns (fun l => f (n + l)) k)
  refine ⟨sched, later, hloop, ?_⟩
  rw [moment_add, hlater, serviceRun_append]
  exact congrArg (fun c => (bridge T U).run _ c later) hloop

theorem moment_legal (n k : Nat) : ∃ ls,
    Moment.events (P.moment ingress adapter egress pick ring id capacity clock f (n + k)).loop =
        Moment.events (P.moment ingress adapter egress pick ring id capacity clock f n).loop ++ ls ∧
      (bridge T U).Legal
        (P.moment ingress adapter egress pick ring id capacity clock f n).loop.world ls
        (P.moment ingress adapter egress pick ring id capacity clock f (n + k)).loop.world := by
  obtain ⟨sched, later, hbefore, hafter⟩ :=
    moment_loop ingress adapter egress pick ring id capacity clock (P := P) (f := f) n k
  rw [hbefore, hafter]
  exact Dag.events_append _ pick _ _ sched later

theorem exchanged_moment (n : Nat) :
    let m := P.moment ingress adapter egress pick ring id capacity clock f n
    Exchanged m.loop.world (Moment.events m.loop) m.pool :=
  P.exchanged_run ⟨rfl, rfl, rfl⟩ (Threads.turns f n)

theorem stage_le {n n' : Nat} (h : n ≤ n') :
    (P.moment ingress adapter egress pick ring id capacity clock f n).loop.stage ≤
      (P.moment ingress adapter egress pick ring id capacity clock f n').loop.stage := by
  obtain ⟨k, rfl⟩ := Nat.exists_eq_add_of_le h
  obtain ⟨later, hlater, -⟩ := P.threads.run_loop (bridge T U)
    ((service ingress adapter egress).dag.stage pick)
    (P.moment ingress adapter egress pick ring id capacity clock f n)
    (Threads.turns (fun l => f (n + l)) k)
  rw [moment_add, hlater]
  exact Shared.stage_le_run (bridge T U) _ _ later

theorem refines_moment (n : Nat) :
    Pipeline.Refines (serviceContract ingress adapter egress) adapter.default
      (P.moment ingress adapter egress pick ring id capacity clock f n).loop := by
  obtain ⟨sched, -, hloop, -⟩ :=
    moment_loop ingress adapter egress pick ring id capacity clock (P := P) (f := f) n 0
  rw [hloop]
  exact service_refines ingress adapter egress pick ring id sched rfl

variable {n : Nat}

/-- **The backlog is worked off.** If nothing is accepted from some moment on, then from some later
moment on the inbound channel is empty. The induction is on the backlog, which every iteration makes
shorter. -/
theorem empty_later (hloop : Threads.LoopFair f)
    (hsame : ∀ n', n ≤ n' →
      accepted (Moment.events
        (P.moment ingress adapter egress pick ring id capacity clock f n').loop) =
      accepted (Moment.events
        (P.moment ingress adapter egress pick ring id capacity clock f n).loop)) :
    ∃ n', n ≤ n' ∧ ∀ n'', n' ≤ n'' →
      (P.moment ingress adapter egress pick ring id capacity clock f
        n'').loop.world.inbound.queue = [] := by
  obtain ⟨l, hl⟩ : ∃ l, (P.moment ingress adapter egress pick ring id capacity clock f
    n).loop.world.inbound.queue.length = l := ⟨_, rfl⟩
  induction l using Nat.strong_induction_on generalizing n with
  | _ l ih =>
    obtain ⟨k, hstage⟩ := Threads.reaches_stage P.threads (bridge T U) _
      (P.moment ingress adapter egress pick ring id capacity clock f n) (hloop.drop n)
      (k := 3 * ((P.moment ingress adapter egress pick ring id capacity clock f n).loop.stage + 1)
        + 1) (by omega)
    rw [← moment_add] at hstage
    obtain ⟨sched, later, hbefore, hafter⟩ :=
      moment_loop ingress adapter egress pick ring id capacity clock (P := P) (f := f) n k
    have hdrains := drains_between ingress adapter egress pick ring id
      (TransportDriver.spawnWith (Chan.fresh capacity) clock) sched later
      (j := (P.moment ingress adapter egress pick ring id capacity clock f n).loop.stage + 1)
    simp only [← hbefore, ← hafter] at hdrains
    have hstill := hsame (n + k) (Nat.le_add_right n k)
    rcases hdrains (by omega) (by omega) hstill with hempty | hshorter
    · refine ⟨n + k, Nat.le_add_right n k, fun n' hn' => ?_⟩
      obtain ⟨k', rfl⟩ := Nat.exists_eq_add_of_le hn'
      obtain ⟨ls, hevents, hlegal⟩ := moment_legal ingress adapter egress pick ring id capacity
        clock (P := P) (f := f) (n + k) k'
      have hagain := (hsame (n + k + k') (by omega)).trans hstill.symm
      rw [hevents, accepted_append] at hagain
      have hlaw := queue_law hlegal
      rw [hempty, List.append_right_eq_self.mp hagain] at hlaw
      exact (List.append_eq_nil_iff.mp hlaw.symm).2
    · obtain ⟨n', hle, hempty⟩ := ih _ (hl ▸ hshorter)
        (fun n' hn' => (hsame n' (by omega)).trans hstill.symm) rfl
      exact ⟨n', by omega, hempty⟩

/-- If nothing is accepted from some moment on, then from some later moment on, whenever an
iteration is over, everything accepted has been handed to the machine. -/
theorem handed_all (hloop : Threads.LoopFair f)
    (hsame : ∀ n', n ≤ n' →
      accepted (Moment.events
        (P.moment ingress adapter egress pick ring id capacity clock f n').loop) =
      accepted (Moment.events
        (P.moment ingress adapter egress pick ring id capacity clock f n).loop)) :
    ∃ n₁, n ≤ n₁ ∧ ∀ n', n₁ ≤ n' →
      let m := (P.moment ingress adapter egress pick ring id capacity clock f n').loop
      m.stage % 3 = 0 → m.world.inbound.queue = [] ∧
        (Pipeline.handed m.stage m.mem).flatMap ingress.arrivals =
          accepted (Moment.events m) := by
  obtain ⟨n₀, hle, hempty⟩ :=
    empty_later ingress adapter egress pick ring id capacity clock hloop hsame
  obtain ⟨k, hstage⟩ := Threads.next_stage P.threads (bridge T U) _
    (P.moment ingress adapter egress pick ring id capacity clock f n₀) (hloop.drop n₀)
  rw [← moment_add] at hstage
  refine ⟨n₀ + k, by omega, fun n' hn' => ?_⟩
  obtain ⟨k', rfl⟩ := Nat.exists_eq_add_of_le (Nat.le_trans (Nat.le_add_right n₀ k) hn')
  have hlater := stage_le ingress adapter egress pick ring id capacity clock (P := P) (f := f) hn'
  obtain ⟨sched, later, hbefore, hafter⟩ :=
    moment_loop ingress adapter egress pick ring id capacity clock (P := P) (f := f) n₀ k'
  have hhanded := handed_later ingress adapter egress pick ring id
    (TransportDriver.spawnWith (Chan.fresh capacity) clock) sched later
  simp only [← hbefore, ← hafter] at hhanded
  exact hhanded rfl (hempty n₀ (Nat.le_refl n₀))
    ((hsame (n₀ + k') (by omega)).trans (hsame n₀ hle).symm) (by omega)

/-- **What is accepted is answered.** A service beside any threads, on a channel of any capacity,
under any scheduler that lets the runtime move again and again. If no message is accepted from some
moment on, then from some later moment on, whenever an iteration is over, the logged ingress slots
hold everything accepted, in order, the machine is where they lead it, and every value of the output
slots they lead to has been delivered unless a send was refused. -/
theorem settles (hloop : Threads.LoopFair f)
    (hsame : ∀ n', n ≤ n' →
      accepted (Moment.events
        (P.moment ingress adapter egress pick ring id capacity clock f n').loop) =
      accepted (Moment.events
        (P.moment ingress adapter egress pick ring id capacity clock f n).loop)) :
    let c := serviceContract ingress adapter egress
    ∃ n₁, n ≤ n₁ ∧ ∀ n', n₁ ≤ n' →
      let m := (P.moment ingress adapter egress pick ring id capacity clock f n').loop
      let slots := m.mem.log.map fun cl => cl.msgs.1
      m.stage % 3 = 0 → m.world.inbound.queue = [] ∧
        slots.flatMap ingress.arrivals = accepted (Moment.events m) ∧
        m.mem.state = Mealy.final c.step adapter.default slots ∧
        (NoneRefused m.calls →
          delivered m.calls = (Mealy.outputs c.step adapter.default slots).flatMap c.values) := by
  intro c
  obtain ⟨n₁, hle, hhanded⟩ :=
    handed_all ingress adapter egress pick ring id capacity clock hloop hsame
  refine ⟨n₁, hle, fun n' hn' => ?_⟩
  intro m slots hmod
  have href : Pipeline.Refines c adapter.default m :=
    refines_moment ingress adapter egress pick ring id capacity clock n'
  obtain ⟨hempty, hall⟩ := hhanded n' hn' hmod
  have hslots : Pipeline.handed m.stage m.mem = slots := by
    rw [Pipeline.handed, if_neg (by omega), List.append_nil]
  rw [← hslots]
  refine ⟨hempty, hall, href.state, fun hrefused => ?_⟩
  have hdelivered := href.delivered hrefused
  have hunsent : Pipeline.unsent c m = [] := if_neg (by omega)
  rw [hunsent, List.append_nil, href.produced] at hdelivered
  exact hdelivered.symm

/-! The transport that sends two messages, under two schedules -/

/-- It moves once, and then the runtime. -/
def thenLoop (n : Nat) : Threads.Turn Unit Decision Nat :=
  if n = 0 then .thread () .calm else .loop

/-- It and the runtime move in turn. -/
def alternately (n : Nat) : Threads.Turn Unit Decision Nat :=
  if n % 2 = 0 then .thread () .calm else .loop

/-- Beside a service that sends on what it receives, on a channel for one message. -/
def twoSends (f : Nat → Threads.Turn Unit Decision Nat) (n : Nat) :
    ProcessMoment Unit (fun _ => Empty) (fun _ => Except String Unit) UInt8 UInt8 Empty
      (FsmBatchTask Unit) (Slots (Cycle UInt8) (Batch UInt8)) :=
  twoSender.moment (.cycleIngressTask { maxBatch := 2, maxBatch_pos := Nat.two_pos })
    (.fsmBatchTask forwarder) .batchEgressTask (fun _ => 0) (fun _ => (.new none, .new none)) 5
    (some ⟨1, Nat.one_pos⟩) 40 f n

/-- One message, and then only the runtime moves. -/
theorem settles_one : ∃ n, ∀ n', n ≤ n' →
    let m := (twoSends thenLoop n').loop
    m.stage % 3 = 0 → m.world.inbound.queue = [] ∧
      (m.mem.log.map fun cl => cl.msgs.1).flatMap (Ingress.cycleIngressTask pairs).arrivals =
        [1] := by
  have hloop : Threads.LoopFair thenLoop := fun n => ⟨n + 1, Nat.le_succ n, if_neg (by omega)⟩
  have hpool (n : Nat) (hn : 1 ≤ n) :
      (twoSends thenLoop n).pool = (twoSends thenLoop 1).pool := by
    obtain ⟨k, rfl⟩ := Nat.exists_eq_add_of_le hn
    rw [twoSends, moment_add]
    have hlater (l : Nat) : thenLoop (1 + l) = .loop := if_neg (by omega)
    exact Threads.run_alone _ _ _ _ (Threads.forall_turns hlater k)
  obtain ⟨n, -, hn⟩ := settles (P := twoSender) (n := 1)
    (.cycleIngressTask { maxBatch := 2, maxBatch_pos := Nat.two_pos })
    (.fsmBatchTask forwarder) .batchEgressTask (fun _ => 0) (fun _ => (.new none, .new none)) 5
    (some ⟨1, Nat.one_pos⟩) 40 hloop fun n hn => by
      rw [← (exchanged_moment _ _ _ _ _ _ _ _ n).inbound,
        ← (exchanged_moment _ _ _ _ _ _ _ _ 1).inbound]
      exact congrArg (fun p => offered (threadCalls p)) (hpool n hn)
  refine ⟨max n 1, ?_⟩
  intro n' hn' m hmod
  obtain ⟨hempty, hall, -, -⟩ := hn n' (Nat.le_trans (Nat.le_max_left n 1) hn') hmod
  refine ⟨hempty, hall.trans ?_⟩
  rw [← (exchanged_moment _ _ _ _ _ _ _ _ n').inbound]
  exact congrArg (fun p => offered (threadCalls p))
    (hpool n' (Nat.le_trans (Nat.le_max_right n 1) hn'))

theorem serving_moment (n : Nat) :
    let m := P.moment ingress adapter egress pick ring id capacity clock f n
    P.Serving m.loop.world (Moment.events m.loop) m.pool :=
  P.serving_run _ pick _ capacity clock (Threads.turns f n)

theorem trace_moment {n n' : Nat} (h : n ≤ n') :
    (P.moment ingress adapter egress pick ring id capacity clock f n).pool.trace <+:
      (P.moment ingress adapter egress pick ring id capacity clock f n').pool.trace := by
  obtain ⟨k, rfl⟩ := Nat.exists_eq_add_of_le h
  rw [moment_add]
  exact P.threads.trace_run _ _ _ _

theorem delivered_moment {n n' : Nat} (h : n ≤ n') :
    delivered (P.moment ingress adapter egress pick ring id capacity clock f n).loop.calls <+:
      delivered (P.moment ingress adapter egress pick ring id capacity clock f n').loop.calls := by
  obtain ⟨k, rfl⟩ := Nat.exists_eq_add_of_le h
  obtain ⟨ls, hevents, -⟩ :=
    moment_legal ingress adapter egress pick ring id capacity clock (P := P) (f := f) n k
  show _ <+: delivered (calls (Moment.events _))
  rw [hevents, calls_append, delivered_append]
  exact List.prefix_append _ _

theorem started_moment {n n' : Nat} (h : n ≤ n') {i : ι}
    (hi : (P.moment ingress adapter egress pick ring id capacity clock f
      n).pool.shared.started i = true) :
    (P.moment ingress adapter egress pick ring id capacity clock f
      n').pool.shared.started i = true := by
  obtain ⟨k, rfl⟩ := Nat.exists_eq_add_of_le h
  rw [moment_add]
  exact started_run
    (serving_moment ingress adapter egress pick ring id capacity clock n).attended hi _

/-- A running thread is not blocked for good at a call that, if it stays there, is answered from
some moment on. -/
theorem released_of_answer {i : ι} {o : ThreadOp ι T U V}
    {k : o.Res R → Code ι R T U V (K i ⊕ R i)}
    (hstarted : (P.moment ingress adapter egress pick ring id capacity clock f
      n).pool.shared.started i = true)
    (hcur : (P.moment ingress adapter egress pick ring id capacity clock f n).pool.cur i =
      .call o k)
    (hanswer : let c := P.moment ingress adapter egress pick ring id capacity clock f
      (∀ n', n ≤ n' → Threads.Stays i (c n).pool (c n').pool) → ∃ n', n ≤ n' ∧ ∀ n'', n' ≤ n'' →
        ∀ d, (o.answer (c n'').loop.world (c n'').pool.shared (c n'').pool.ended d).isSome = true) :
    Threads.Released P.threads (bridge T U) ((service ingress adapter egress).dag.stage pick)
      (P.moment ingress adapter egress pick ring id capacity clock f n) (fun l => f (n + l)) i := by
  refine .of_call hcur fun hstays => ?_
  simp only [← moment_add] at hstays ⊢
  obtain ⟨n', hle, hn'⟩ := hanswer fun n' hn' => by
    obtain ⟨k', rfl⟩ := Nat.exists_eq_add_of_le hn'
    exact hstays k'
  obtain ⟨k', rfl⟩ := Nat.exists_eq_add_of_le hle
  refine ⟨k', fun l hl d => ?_⟩
  have hgo := started_moment ingress adapter egress pick ring id capacity clock
    (Nat.le_add_right n l) hstarted
  exact (congrArg Option.isSome (if_pos hgo)).trans (hn' (n + l) (Nat.add_le_add_left hl n) d)

/-- A blocking send is not blocked for good if the other threads get nothing more accepted: while it
waits nothing is, and the backlog is worked off. -/
theorem send_released (hloop : Threads.LoopFair f) {i : ι} {m : T}
    {k : Except String Unit → Code ι R T U V (K i ⊕ R i)}
    (hstarted : (P.moment ingress adapter egress pick ring id capacity clock f
      n).pool.shared.started i = true)
    (hcur : (P.moment ingress adapter egress pick ring id capacity clock f n).pool.cur i =
      .call (.send m) k)
    (hothers : ∀ n', n ≤ n' → ∀ j, j ≠ i →
      offered (callsOf j
        (P.moment ingress adapter egress pick ring id capacity clock f n').pool.trace) =
      offered (callsOf j
        (P.moment ingress adapter egress pick ring id capacity clock f n).pool.trace)) :
    Threads.Released P.threads (bridge T U) ((service ingress adapter egress).dag.stage pick)
      (P.moment ingress adapter egress pick ring id capacity clock f n) (fun l => f (n + l)) i := by
  refine released_of_answer ingress adapter egress pick ring id capacity clock hstarted hcur ?_
  intro c hstays
  obtain ⟨n₁, hle, hempty⟩ := empty_later ingress adapter egress pick ring id capacity clock
    (P := P) (n := n) hloop fun n' hn' => by
      rw [← (exchanged_moment ingress adapter egress pick ring id capacity clock n').inbound,
        ← (exchanged_moment ingress adapter egress pick ring id capacity clock n).inbound]
      refine offered_same
        (trace_moment ingress adapter egress pick ring id capacity clock hn') fun j => ?_
      by_cases hj : j = i
      · subst hj
        rw [(hstays n' hn').calls]
      · exact hothers n' hn' j hj
  refine ⟨n₁, hle, fun n' hn' d => ?_⟩
  rw [ThreadOp.answer, if_neg (Chan.not_full_of_nil (hempty n' hn'))]
  split_ifs <;> rfl

/-- **No send waits for ever.** A service beside any threads, on a channel of any capacity, under
any scheduler that lets the runtime and thread `i` move again and again. If thread `i` is at a
blocking send, then the call returns, or a message of another thread is accepted in the meantime.
What it returns is `Ok`, unless another thread that held the sender has ended. -/
theorem send_returns (hloop : Threads.LoopFair f) {i : ι} (hfair : Threads.Fair f i) {m : T}
    {k : Except String Unit → Code ι R T U V (K i ⊕ R i)} :
    let c := P.moment ingress adapter egress pick ring id capacity clock f
    (c n).pool.shared.started i = true → (c n).pool.ended i = none →
    (c n).pool.cur i = .call (.send m) k →
      (∃ n' r, n ≤ n' ∧ Threads.Makes i ⟨.send m, r⟩ (k r) (c n).pool (c n').pool ∧
        (r = .ok () ∨
          ∃ j r', j ≠ i ∧ (P.drops j r').takesTx = true ∧ (c n').pool.ended j = some r')) ∨
      ∃ n' j, n ≤ n' ∧ j ≠ i ∧ (offered (callsOf j (c n).pool.trace)).length <
        (offered (callsOf j (c n').pool.trace)).length := by
  intro c hstarted hrunning hcur
  rw [or_iff_not_imp_right]
  intro hnobody
  have hothers (n' : Nat) (hn' : n ≤ n') (j : ι) (hj : j ≠ i) :
      offered (callsOf j (c n').pool.trace) = offered (callsOf j (c n).pool.trace) := by
    have htrace := trace_moment ingress adapter egress pick ring id capacity clock (P := P)
      (f := f) hn'
    have hpre : offered (callsOf j (c n).pool.trace) <+: offered (callsOf j (c n').pool.trace) :=
      (htrace.filterMap _).filterMap _
    refine (hpre.eq_of_length_le ?_).symm
    by_contra hlt
    exact hnobody ⟨n', j, hn', hj, Nat.lt_of_not_le hlt⟩
  obtain ⟨k', r, hmakes⟩ := Threads.makes_call
    (send_released ingress adapter egress pick ring id capacity clock hloop hstarted hcur hothers)
    (hfair.drop n) hrunning hcur
  rw [← moment_add] at hmakes
  refine ⟨n + k', r, Nat.le_add_right n k', hmakes, ?_⟩
  cases r with
  | ok u => exact Or.inl rfl
  | error e =>
    have hmem : ⟨.send m, .error e⟩ ∈ callsOf i (c (n + k')).pool.trace :=
      hmakes.calls ▸ List.mem_append_right _ (List.mem_singleton.mpr rfl)
    exact Or.inr ((connected_run P _ pick _ capacity clock _).refused i m e (mem_callsOf.mp hmem))

/-- The second message waits for room, and gets in. -/
theorem send_returns_second : (twoSends alternately 1).loop.world.inbound.Full ∧
    ∃ n, callsOf () (twoSends alternately n).pool.trace =
      [⟨.send 1, .ok ()⟩, ⟨.send 2, .ok ()⟩] := by
  have hloop : Threads.LoopFair alternately :=
    fun n => ⟨2 * n + 1, by omega, if_neg (by omega)⟩
  have hfair : Threads.Fair alternately () :=
    fun n => ⟨2 * n, by omega, .calm, if_pos (by omega)⟩
  refine ⟨by decide, ?_⟩
  rcases send_returns (P := twoSender) (n := 1)
    (.cycleIngressTask { maxBatch := 2, maxBatch_pos := Nat.two_pos })
    (.fsmBatchTask forwarder) .batchEgressTask (fun _ => 0) (fun _ => (.new none, .new none)) 5
    (some ⟨1, Nat.one_pos⟩) 40 hloop hfair rfl rfl rfl with ⟨n, r, -, hmakes, hr⟩ | ⟨n, j, -, hj, -⟩
  · obtain rfl : r = .ok () :=
      hr.resolve_right fun ⟨j, _, hj, _⟩ => hj (Subsingleton.elim j ())
    exact ⟨n, hmakes.calls⟩
  · exact absurd (Subsingleton.elim j ()) hj

end Program

end Runs

end Msrs
