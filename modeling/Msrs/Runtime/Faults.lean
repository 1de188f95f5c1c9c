import Msrs.Runtime.Pipeline

/-!
# A transport that dies

`Transport::run` returns an error and its ends of the channels are dropped. From then on a
receive fails because the channel is disconnected and no longer because it is empty, and both
ingress tasks treat the two alike. Once the backlog is drained, every later iteration is one
that a live but idle transport would give (`idle_after_death`), whatever the rest of the
pipeline does.
-/

namespace Msrs

open Interleave Fifo

variable {T U σ A B : Type}

/-! ## A dead bridge -/

/-- The transport is gone and nothing it sent is left. -/
def Bridge.Dead (w : Bridge T U) : Prop := w.inbound.tx = false ∧ w.inbound.queue = []

/-- What a dead bridge answers to an ingress task. -/
def DeadAnswer : IoCall T U → Prop
  | ⟨.tryRecv, r⟩ => r = .error .disconnected
  | ⟨.len, n⟩ => n = 0
  | _ => True

theorem Bridge.Dead.handle {w : Bridge T U} (h : w.Dead) (o : Op T U) :
    (w.handle o).2.Dead ∧ DeadAnswer ⟨o, (w.handle o).1⟩ := by
  obtain ⟨htx, hqueue⟩ := h
  cases o with
  | tryRecv =>
    have hrecv := Chan.tryRecv_of_nil hqueue
    rw [htx] at hrecv
    refine ⟨?_, congrArg Prod.fst hrecv⟩
    show w.inbound.tryRecv.2.tx = false ∧ w.inbound.tryRecv.2.queue = []
    rw [hrecv]
    exact ⟨htx, hqueue⟩
  | len => exact ⟨⟨htx, hqueue⟩, congrArg List.length hqueue⟩
  | now | send v => exact ⟨⟨htx, hqueue⟩, trivial⟩

theorem Bridge.Dead.act {w : Bridge T U} (h : w.Dead) (e : Act T U) : (w.act e).2.Dead := by
  obtain ⟨htx, hqueue⟩ := h
  have hoffer (m : T) : w.offer m = (false, w) := by
    rw [Bridge.offer, if_neg (by simp [htx])]
  cases e with
  | send m | trySend m =>
    show (w.offer m).2.Dead
    rw [hoffer]
    exact ⟨htx, hqueue⟩
  | exit r =>
    unfold Bridge.act
    cases w.join with
    | none => exact ⟨rfl, hqueue⟩
    | some _ => exact ⟨htx, hqueue⟩
  | dropTx => exact ⟨rfl, hqueue⟩
  | recv | dropRx | clock t => exact ⟨htx, hqueue⟩

/-- A dead bridge stays dead and answers as one. -/
theorem dead_law {w w' : Bridge T U} {ls : List (Event T U)} (h : (bridge T U).Legal w ls w')
    (hdead : w.Dead) : w'.Dead ∧ ∀ c ∈ calls ls, DeadAnswer c := by
  refine Shared.Legal.track (bridge T U)
    (R := fun ls v => v.Dead ∧ ∀ c ∈ calls ls, DeadAnswer c) ?_ ?_
    ⟨hdead, by simp⟩ h
  · intro ls v o ih
    obtain ⟨hv, hanswer⟩ := ih.1.handle o
    refine ⟨hv, ?_⟩
    rw [calls_append]
    exact List.forall_mem_append.mpr ⟨ih.2, List.forall_mem_singleton.mpr hanswer⟩
  · intro ls v e ih
    refine ⟨ih.1.act e, ?_⟩
    simpa using ih.2

theorem tx_of_join {w w' : Bridge T U} {ls : List (Event T U)} (h : (bridge T U).Legal w ls w')
    (hw : w.join = none) {r : Except String Unit} (hjoin : w'.join = some r) :
    w'.inbound.tx = false := by
  have hlaw : w'.join ≠ none → w'.inbound.tx = false := by
    refine Shared.Legal.track (bridge T U)
      (R := fun _ v => v.join ≠ none → v.inbound.tx = false) ?_ ?_
      (fun hne => absurd hw hne) h
    · intro ls v o ih hj
      have hj' : v.join ≠ none := by
        cases o <;> exact hj
      exact (v.ends_handle o).1.trans (ih hj')
    · intro ls v e ih hj
      by_contra hne
      have hback := (v.ends_act e).1 ((Bool.not_eq_false _).mp hne)
      -- Only an exit sets the result, and it drops the sender.
      by_cases hj' : v.join = none
      · cases e with
        | exit r =>
          apply hne
          show (v.act (.exit r)).2.inbound.tx = false
          simp [Bridge.act, hj']
        | send m | trySend m =>
          apply hj
          show (v.offer m).2.join = none
          unfold Bridge.offer
          split <;> exact hj'
        | recv | dropTx | dropRx | clock t => exact hj hj'
      · rw [ih hj'] at hback
        cases hback
  exact hlaw (by simp [hjoin])

/-! ## The two ingress tasks -/

/-- What one iteration of a source can leave, slot and result, while the transport is alive and
sends nothing. -/
def LiveIdle (source : CuMsg A → Io T U (CuMsg A × CuResult)) (out : CuMsg A × CuResult) : Prop :=
  ∃ a w ls w', w.join = none ∧ w.inbound.tx = true ∧ w.inbound.queue = [] ∧
    w'.join = none ∧ w'.inbound.tx = true ∧ w'.inbound.queue = [] ∧ accepted ls = [] ∧
    Shared.Ran (bridge T U) (source a) w ls w' out

/-- **Dead looks idle.** On a dead bridge an ingress task leaves what it leaves on a live and
idle one. -/
theorem Ingress.liveIdle_of_dead (ingress : Ingress T A) {a : CuMsg A} {w w' : Bridge T U}
    {ls : List (Event T U)} {out : CuMsg A × CuResult} (hdead : w.Dead)
    (h : Shared.Ran (bridge T U) (ingress.process a) w ls w' out) :
    LiveIdle (ingress.process (U := U)) out := by
  obtain ⟨a', r⟩ := out
  obtain ⟨-, hanswers⟩ := dead_law h.legal hdead
  cases ingress with
  | ingressTask =>
    obtain ⟨res, now, hcalls, rfl, rfl⟩ := IngressTask.yields_process h.yields
    rw [hcalls] at hanswers
    have hres : res = .error .disconnected := hanswers ⟨.tryRecv, res⟩ (by simp)
    subst hres
    refine ⟨a, TransportDriver.spawn now,
      [.call ⟨.tryRecv, .error .empty⟩, .call ⟨.now, now⟩], TransportDriver.spawn now,
      rfl, rfl, rfl, rfl, rfl, rfl, rfl, ⟨rfl, rfl, rfl⟩, ?_⟩
    exact ⟨_, rfl, _, rfl, rfl⟩
  | cycleIngressTask task =>
    obtain ⟨events, drain, pending, now, hd, hcalls, rfl, rfl⟩ :=
      CycleIngressTask.yields_process h.yields
    rw [hcalls] at hanswers
    have hpending : pending = 0 := hanswers ⟨.len, pending⟩ (by simp)
    subst hpending
    obtain ⟨maxBatch, hpos⟩ := task
    obtain ⟨n, rfl⟩ := Nat.exists_eq_succ_of_ne_zero (Nat.ne_of_gt hpos)
    cases hd with
    | recv v _ =>
      have hres : (.ok v : Except TryRecvError T) = .error .disconnected :=
        hanswers ⟨.tryRecv, .ok v⟩ (by simp)
      cases hres
    | stop _ e =>
      refine ⟨a, TransportDriver.spawn now,
        [.call ⟨.tryRecv, .error .empty⟩, .call ⟨.len, 0⟩, .call ⟨.now, now⟩],
        TransportDriver.spawn now, rfl, rfl, rfl, rfl, rfl, rfl, rfl, ⟨rfl, rfl, rfl, rfl⟩, ?_⟩
      exact ⟨_, rfl, _, rfl, _, rfl, rfl⟩

/-! ## After a death -/

variable {P : Pipeline T U σ A B} {pick : Nat → Nat}

/-- The ingress slots and results of the iterations after stage `k₁` are those of a live and idle
transport. -/
def IdleAfter (P : Pipeline T U σ A B) (k₁ k : Nat) (rt : Runtime σ (Slots A B)) : Prop :=
  ∀ j a r, k₁ < 3 * j → (Pipeline.filled k rt)[j]? = some a → rt.results[3 * j]? = some r →
    LiveIdle P.source (a, r)

theorem IdleAfter.idle {id : UInt64} {k₁ k : Nat} {rt rt' : Runtime σ (Slots A B)}
    {r' : CuResult} (hlog : Dag.Logged P.dag id k rt) (hidle : IdleAfter P k₁ k rt)
    (hk : k % 3 ≠ 0) (hf : Pipeline.filled (k + 1) rt' = Pipeline.filled k rt)
    (hresults : rt'.results = rt.results ++ [r']) : IdleAfter P k₁ (k + 1) rt' := by
  have hres : rt.results.length = k := hlog.length_results
  intro j a r hj ha hr
  rw [hf] at ha
  rw [hresults] at hr
  rcases Mealy.getElem?_snoc.mp hr with hr | ⟨hlast, -⟩
  · exact hidle j a r hj ha hr
  · omega

theorem IdleAfter.step {id : UInt64} {k₁ k : Nat} {rt rt' : Runtime σ (Slots A B)}
    {w w' : Bridge T U} {ls : List (Event T U)}
    (hsource : ∀ {a w ls w' out}, w.Dead → Shared.Ran (bridge T U) (P.source a) w ls w' out →
      LiveIdle P.source out)
    (hlog : Dag.Logged P.dag id k rt) (hdead : w.Dead) (hidle : IdleAfter P k₁ k rt)
    (h : Shared.Ran (bridge T U) (P.dag.stage pick k rt) w ls w' rt') :
    IdleAfter P k₁ (k + 1) rt' := by
  rcases Pipeline.yields_stage h.yields with ⟨h0, a', r', hsrc, rfl⟩ | ⟨h1, s', b, r', htr, rfl⟩ |
    ⟨h2, r', hsink, rfl⟩
  · have hlen := Pipeline.length_filled hlog
    have hres : rt.results.length = k := hlog.length_results
    intro j a r hj ha hr
    rw [(Pipeline.views_source h0 rt.state _ r').1] at ha
    rcases Mealy.getElem?_snoc.mp ha with ha | ⟨hlast, rfl⟩
    · have hlt := (List.getElem?_eq_some_iff.mp ha).1
      rcases Mealy.getElem?_snoc.mp hr with hr | ⟨hlast, -⟩
      · exact hidle j a r hj ha hr
      · omega
    -- The slot and the result are the ones this stage has left.
    · rcases Mealy.getElem?_snoc.mp hr with hr | ⟨-, rfl⟩
      · have hlt := (List.getElem?_eq_some_iff.mp hr).1
        omega
      · exact hsource hdead ⟨h.legal, hsrc⟩
  · exact hidle.idle hlog (by omega) (Pipeline.views_transform h1 s' b r').1 rfl
  · exact hidle.idle hlog (by omega) (Pipeline.views_sink h2 r' (pick (k / 3))).1 rfl

/-- From the moment `m` on, some later iteration leaves an ingress slot and a result that no live
and idle transport could have given. -/
def ShowsFault (P : Pipeline T U σ A B) (pick : Nat → Nat) (m : Moment T U σ (Slots A B)) : Prop :=
  ∃ sched j cl r, m.stage < 3 * j ∧
    ((bridge T U).run (P.dag.stage pick) m sched).mem.log[j]? = some cl ∧
    ((bridge T U).run (P.dag.stage pick) m sched).mem.results[3 * j]? = some r ∧
    ¬ LiveIdle P.source (cl.msgs.1, r)

/-- **A dead transport is never shown.** If the transport is gone and its backlog drained at some
moment of a run, every later iteration is one of a live and idle transport. -/
theorem idle_after_death
    (hsource : ∀ {a w ls w' out}, w.Dead → Shared.Ran (bridge T U) (P.source a) w ls w' out →
      LiveIdle P.source out)
    (s : σ) (ring : Nat → Slots A B) (id : UInt64) (w : Bridge T U) (sched : Schedule T U)
    (hdead : (P.dag.run pick (.start s ring id) w sched).world.Dead) :
    ¬ ShowsFault P pick (P.dag.run pick (.start s ring id) w sched) := by
  have hlog := Dag.logged_run P.dag pick s ring id w sched
  obtain ⟨cs, ds, -, hfol, -⟩ := Shared.run_rule_calls (bridge T U) (P.dag.stage pick)
    (J := fun _ _ _ => True) (s := .start s ring id) (w := w)
    trivial (fun _ _ _ _ _ _ _ => trivial) sched
  change (P.dag.stage pick (P.dag.run pick (.start s ring id) w sched).stage
    (P.dag.run pick (.start s ring id) w sched).mem).Follows ds
    (P.dag.run pick (.start s ring id) w sched).cur at hfol
  generalize P.dag.run pick (.start s ring id) w sched = m at *
  rintro ⟨sched', j, cl, r, hj, hcl, hr, hshown⟩
  have hfirst : ∀ ls w' rt', Shared.Ran (bridge T U) m.cur m.world ls w' rt' →
      Dag.Logged P.dag id (m.stage + 1) rt' ∧ w'.Dead ∧
        IdleAfter P m.stage (m.stage + 1) rt' := by
    intro ls w' rt' hran
    have hyields : (P.dag.stage pick m.stage m.mem).Yields (ds ++ calls ls) rt' :=
      (Prog.follows_append _ _ _ _).mpr ⟨m.cur, hfol, hran.yields⟩
    have hlog' := hlog.step hyields
    -- No iteration has begun since.
    refine ⟨hlog', (dead_law hran.legal hdead).1, ?_⟩
    intro j a r hj ha _
    have hlt := (List.getElem?_eq_some_iff.mp ha).1
    rw [Pipeline.length_filled hlog'] at hlt
    omega
  rcases Shared.run_rule_from (bridge T U) (P.dag.stage pick)
    (J := fun k rt w => Dag.Logged P.dag id k rt ∧ w.Dead ∧ IdleAfter P m.stage k rt) m hfirst
    (fun k rt w ls w' rt' hJ hran => ⟨hJ.1.step hran.yields, (dead_law hran.legal hJ.2.1).1,
      hJ.2.2.step hsource hJ.1 hJ.2.1 hran⟩) sched' with ⟨-, hmem, -⟩ | ⟨w₀, ls, ⟨-, -, hidle⟩, -⟩
  · rw [hmem] at hcl
    have hlt := (List.getElem?_eq_some_iff.mp hcl).1
    have hlen : m.mem.log.length = m.stage / 3 := hlog.length_log
    omega
  · refine hshown (hidle j cl.msgs.1 r hj ?_ hr)
    have hlt := (List.getElem?_eq_some_iff.mp hcl).1
    rw [Pipeline.filled, List.getElem?_append_left (by simpa using hlt), List.getElem?_map, hcl]
    rfl

/-- **A transport failure is swallowed.** In every run in which `Transport::run` has returned an
error and the messages it left have been drained, no later iteration of either ingress task
shows it: each leaves a slot and a result that a live and idle transport would have given. -/
theorem transport_failure_swallowed (ingress : Ingress T A)
    (transform : σ → CuMsg A → CuMsg B → Io T U (σ × CuMsg B × CuResult))
    (sink : CuMsg B → Io T U CuResult) (pick : Nat → Nat) (s : σ) (ring : Nat → Slots A B)
    (id : UInt64) (inbound : Chan T) (clock : Nat) (sched : Schedule T U) (e : String) :
    let P : Pipeline T U σ A B := { source := ingress.process, transform, sink }
    let m := P.dag.run pick (.start s ring id) (TransportDriver.spawnWith inbound clock) sched
    m.world.join = some (.error e) → m.world.inbound.queue = [] → ¬ ShowsFault P pick m := by
  intro P m hjoin hqueue
  have hlegal := Dag.legal_run P.dag pick (.start s ring id)
    (TransportDriver.spawnWith inbound clock) sched
  exact idle_after_death ingress.liveIdle_of_dead s ring id _ sched
    ⟨tx_of_join hlegal rfl hjoin, hqueue⟩

/-- A message, then the death of the transport, then one iteration that drains the message. -/
theorem transport_failure_swallowed_backlog :
    let P : Pipeline UInt8 UInt8 Unit (Cycle UInt8) UInt8 :=
      { source := (Ingress.cycleIngressTask { maxBatch := 1, maxBatch_pos := by decide }).process
        transform := fun s _ b => .ret (s, b, .ok ())
        sink := fun _ => .ret (.ok ()) }
    let m := P.dag.run (fun _ => 0) (.start () (fun _ => (.new none, .new none)) 0)
      (TransportDriver.spawn 0)
      (.env (.send 7) :: .env (.exit (.error "link lost")) :: List.replicate 6 .move)
    ¬ ShowsFault P (fun _ => 0) m :=
  transport_failure_swallowed _ _ _ _ _ _ _ _ _ _ "link lost" rfl rfl

/-- The transport's `run` returns an error before anything else happens: no iteration ever shows
it. -/
theorem swallowed_at_once :
    let P : Pipeline UInt8 UInt8 Unit UInt8 UInt8 :=
      { source := IngressTask.process
        transform := fun s _ b => .ret (s, b, .ok ())
        sink := fun _ => .ret (.ok ()) }
    let m := P.dag.run (fun _ => 0) (.start () (fun _ => (.new none, .new none)) 0)
      (TransportDriver.spawn 0) [.env (.exit (.error "link lost"))]
    m.world.join = some (.error "link lost") ∧ m.world.inbound.queue = [] ∧
      ¬ ShowsFault P (fun _ => 0) m :=
  ⟨rfl, rfl, idle_after_death Ingress.ingressTask.liveIdle_of_dead _ _ _ _ _ ⟨rfl, rfl⟩⟩

end Msrs
