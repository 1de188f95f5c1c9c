import Msrs.Runtime.Threads
import Msrs.Runtime.Messages
import Msrs.Lib.Endings

/-!
# The end of a live run

`run_live` iterates the runtime, drops the application and then waits for the transport. Dropping
the application takes the DAG's ends of both channels away: from then on no call on the bridge
blocks (`ThreadOp.answer_isSome`), and what the transport had not received yet it still receives.
-/

namespace Msrs

open Interleave Fifo

variable {ι : Type} {S R : ι → Type} {T U V σ C : Type} [DecidableEq ι]

/-! ## The thread of a transport -/

namespace Code

omit [DecidableEq ι]

def send (m : T) : Code ι R T U V (Except String Unit) :=
  Prog.perform (ThreadOp.send (ι := ι) (U := U) (V := V) m)
def recv (timeoutMs : Option Nat) : Code ι R T U V (Except RecvTimeoutError U) :=
  Prog.perform (ThreadOp.recv (ι := ι) (T := T) (V := V) timeoutMs)
def forward (v : V) : Code ι R T U V (Except String Unit) :=
  Prog.perform (ThreadOp.forward (ι := ι) (T := T) (U := U) v)
def take : Code ι R T U V (Except TryRecvError V) :=
  Prog.perform (ThreadOp.take (ι := ι) (T := T) (U := U))
def takeTimeout (timeoutMs : Nat) : Code ι R T U V (Except RecvTimeoutError V) :=
  Prog.perform (ThreadOp.takeTimeout (ι := ι) (T := T) (U := U) timeoutMs)
def sleep (ms : Nat) : Code ι R T U V Unit :=
  Prog.perform (ThreadOp.sleep (ι := ι) (T := T) (U := U) (V := V) ms)
def spawn (j : ι) : Code ι R T U V Unit :=
  Prog.perform (ThreadOp.spawn (T := T) (U := U) (V := V) j)
def join (j : ι) : Code ι R T U V (R j) :=
  Prog.perform (ThreadOp.join (T := T) (U := U) (V := V) j)

end Code

/-- `Transport::run`, which ends with an `Except String Unit`. -/
abbrev Transport (ι : Type) (R : ι → Type) (T U V K : Type) : Type :=
  Routine (ThreadOp ι T U V) (ThreadOp.Res R) K (Except String Unit)

omit [DecidableEq ι] in
/-- The closure `spawn_with` gives to its thread: best-effort real-time scheduling, and then the
transport. -/
def TransportDriver.thread {K : Type} (target : TargetOs) (rt : RtConfig)
    (transport : Transport ι R T U V K) : Transport ι R T U V K where
  first := do
    let _ ← (rt.apply target).embed .rt (fun _ r => r)
    transport.first
  again := transport.again

omit [DecidableEq ι] in
/-- **`spawn_with`.** A thread calls what setting itself up calls, and then what its transport
calls. -/
theorem TransportDriver.at_thread {K : Type} {target : TargetOs} {rt : RtConfig}
    {transport : Transport ι R T U V K} {n : Nat} {cs : List (ThreadCall ι R T U V)}
    {q : Code ι R T U V (K ⊕ Except String Unit)}
    (h : (TransportDriver.thread target rt transport).At n cs q) :
    ∃ setUp ds q', cs = setUp ++ ds ∧ (∀ c ∈ setUp, ∃ o, c.1 = .rt o) ∧ transport.At n ds q' ∧
      (q = q' ∨ ∃ o k, q = .call (.rt o) k) := by
  induction h with
  | @first cs q h =>
    have hwithin : ((rt.apply target).embed .rt (fun _ r => r) : Code ι R T U V _).Within
        (fun o => ∃ o', o = .rt o') := Prog.within_embed _ _ _
    rcases Prog.follows_bind h with ⟨p', hp, rfl⟩ | ⟨a, cs₁, cs₂, rfl, h₁, h₂⟩
    · refine ⟨cs, [], transport.first, (List.append_nil cs).symm, hwithin.follows hp,
        .first rfl, ?_⟩
      cases p' with
      | ret a => exact Or.inl rfl
      | call o k =>
        obtain ⟨o', rfl⟩ := (hwithin.of_follows hp).1
        exact Or.inr ⟨o', _, rfl⟩
    · exact ⟨cs₁, cs₂, q, rfl, hwithin.follows h₁, .first h₂, Or.inl rfl⟩
  | @again n cs ds s q hcs h ih =>
    obtain ⟨setUp, es, q', rfl, hsetUp, hat, heq⟩ := ih
    obtain rfl : .ret (.inl s) = q' := by
      rcases heq with heq | ⟨o, k, hcall⟩
      · exact heq
      · cases hcall
    exact ⟨setUp, es ++ ds, q, List.append_assoc _ _ _, hsetUp, .again hat h, Or.inl rfl⟩

omit [DecidableEq ι] in
/-- Setting itself up moves nothing, so what a thread has moved is what its transport has. -/
theorem TransportDriver.moved_thread {K : Type} {target : TargetOs} {rt : RtConfig}
    {transport : Transport ι R T U V K} {n : Nat} {cs : List (ThreadCall ι R T U V)}
    {q : Code ι R T U V (K ⊕ Except String Unit)}
    (h : (TransportDriver.thread target rt transport).At n cs q) :
    ∃ ds q', transport.At n ds q' ∧ (q = q' ∨ ∃ o k, q = .call (.rt o) k) ∧ ds ⊆ cs ∧
      offered cs = offered ds ∧ taken cs = taken ds ∧ forwarded cs = forwarded ds := by
  obtain ⟨setUp, ds, q', rfl, hsetUp, hat, heq⟩ := TransportDriver.at_thread h
  have hnone {β : Type} {f : ThreadCall ι R T U V → Option β}
      (hf : ∀ (o : RtOp) (r : o.Res), f ⟨.rt o, r⟩ = none) : setUp.filterMap f = [] := by
    apply List.filterMap_eq_nil_iff.mpr
    intro c hc
    obtain ⟨o, r⟩ := c
    obtain ⟨o', rfl⟩ := hsetUp _ hc
    exact hf o' r
  refine ⟨ds, q', hat, heq, List.subset_append_right _ _, ?_, ?_, ?_⟩
  · rw [offered_append]
    exact congrArg (· ++ offered ds) (hnone fun _ _ => rfl)
  · rw [taken_append]
    exact congrArg (· ++ taken ds) (hnone fun _ _ => rfl)
  · rw [forwarded_append]
    exact congrArg (· ++ forwarded ds) (hnone fun _ _ => rfl)

/-- A wait that timed out. -/
def ThreadCall.TimedOut : ThreadCall ι R T U V → Prop
  | ⟨.recv _, r⟩ => r = .error .timeout
  | ⟨.takeTimeout _, r⟩ => r = .error .timeout
  | _ => False

/-! ## Hanging up -/

/-- `drop(application)`: the ingress task's receiver and the egress task's sender are gone. -/
def Bridge.hangUp (w : Bridge T U) : Bridge T U :=
  { w with
    inbound := w.inbound.dropRx
    outbound := w.outbound.dropTx
    unbounded := w.unbounded }

/-- The DAG has hung up. -/
structure HungUp (w : Bridge T U) : Prop where
  rx : w.inbound.rx = false
  tx : w.outbound.tx = false

omit [DecidableEq ι] in
theorem hungUp_hangUp (w : Bridge T U) : HungUp w.hangUp := ⟨rfl, rfl⟩

omit [DecidableEq ι] in
theorem Bridge.outbound_tx_act (w : Bridge T U) (e : Act T U) :
    (w.act e).2.outbound.tx = w.outbound.tx := by
  cases e with
  | send m | trySend m =>
    show (w.offer m).2.outbound.tx = w.outbound.tx
    unfold Bridge.offer
    by_cases htx : w.inbound.tx = true
    · rw [if_pos htx]
    · rw [if_neg htx]
  | recv => exact Chan.tx_tryRecv _
  | exit r =>
    unfold Bridge.act
    cases w.join <;> rfl
  | dropTx | dropRx | clock t => rfl

omit [DecidableEq ι] in
theorem Bridge.outbound_tx_acted (w : Bridge T U) (e : Option (Act T U)) :
    (Threads.acted (bridge T U) w e).outbound.tx = w.outbound.tx := by
  cases e with
  | none => rfl
  | some e => exact w.outbound_tx_act e

theorem HungUp.act {w : Bridge T U} (h : HungUp w) (e : Act T U) : HungUp (w.act e).2 :=
  ⟨(w.inbound_act e).2.trans h.rx, (w.outbound_tx_act e).trans h.tx⟩

theorem HungUp.acted {w : Bridge T U} (h : HungUp w) (e : Option (Act T U)) :
    HungUp (Threads.acted (bridge T U) w e) := by
  cases e with
  | none => exact h
  | some e => exact h.act e

/-- **After the DAG has hung up no call on the bridge blocks**: a send fails, and a receive returns
what is queued and then fails. What may still block is waiting for a thread, and for a result
while somebody can send one. -/
theorem ThreadOp.answer_isSome {w : Bridge T U} {x : Process ι V} {ended : ∀ j, Option (R j)}
    {o : ThreadOp ι T U V} (hw : HungUp w) (hjoin : ∀ j, o = .join j → (ended j).isSome = true)
    (htake : ∀ ms, o = .takeTimeout ms → x.results.tx = false) (d : Decision) :
    (o.answer w x ended d).isSome = true := by
  have hends : ¬ (w.inbound.tx = true ∧ w.inbound.rx = true) := by
    intro h
    rw [hw.rx] at h
    exact absurd h.2 (by simp)
  cases o with
  | rt o | sleep ms | forward v | take | spawn j => rfl
  | send m | trySend m =>
    rw [answer, if_neg hends]
    rfl
  | recv timeoutMs =>
    rw [answer, Option.isSome_map]
    exact Chan.await_isSome hw.tx _
  | takeTimeout ms =>
    rw [answer, Option.isSome_map]
    exact Chan.await_isSome (htake ms rfl) _
  | join j =>
    rw [answer, Option.isSome_map]
    exact hjoin j rfl

theorem ThreadOp.answer_outbound {w : Bridge T U} {x x' : Process ι V}
    {ended : ∀ j, Option (R j)} {d : Decision} {o : ThreadOp ι T U V} {r : o.Res R}
    {e : Option (Act T U)} (h : o.answer w x ended d = some (r, x', e)) :
    (Threads.acted (bridge T U) w e).outbound.tx = w.outbound.tx ∧
      (Threads.acted (bridge T U) w e).outbound.rx = w.outbound.rx := by
  have hoffer (m : T) : (w.offer m).2.outbound = w.outbound := by
    unfold Bridge.offer
    by_cases htx : w.inbound.tx = true
    · rw [if_pos htx]
    · rw [if_neg htx]
  cases o with
  | rt o | sleep ms | forward v | take | spawn j =>
    cases h
    exact ⟨rfl, rfl⟩
  | send m =>
    unfold answer at h
    split_ifs at h <;> cases h
    · exact ⟨congrArg Chan.tx (hoffer m), congrArg Chan.rx (hoffer m)⟩
    · exact ⟨rfl, rfl⟩
  | trySend m =>
    unfold answer at h
    split_ifs at h <;> cases h
    · exact ⟨rfl, rfl⟩
    · exact ⟨congrArg Chan.tx (hoffer m), congrArg Chan.rx (hoffer m)⟩
    · exact ⟨rfl, rfl⟩
  | recv timeoutMs =>
    obtain ⟨r', -, hr'⟩ := Option.map_eq_some_iff.mp h
    cases r' with
    | ok v =>
      cases hr'
      exact ⟨Chan.tx_tryRecv _, Chan.rx_tryRecv _⟩
    | error e' =>
      cases hr'
      exact ⟨rfl, rfl⟩
  | takeTimeout ms | join j =>
    obtain ⟨r', -, hr'⟩ := Option.map_eq_some_iff.mp h
    cases hr'
    exact ⟨rfl, rfl⟩

theorem ThreadOp.answer_started {w : Bridge T U} {x x' : Process ι V}
    {ended : ∀ j, Option (R j)} {d : Decision} {o : ThreadOp ι T U V} {r : o.Res R}
    {e : Option (Act T U)} (h : o.answer w x ended d = some (r, x', e)) {j : ι}
    (hj : x'.started j = true) : x.started j = true ∨ o = .spawn j := by
  cases o with
  | spawn i =>
    cases h
    by_cases hij : j = i
    · exact Or.inr (congrArg _ hij.symm)
    · exact Or.inl ((Function.update_of_ne hij _ _).symm.trans hj)
  | rt o | sleep ms | forward v | take =>
    cases h
    exact Or.inl hj
  | send m | trySend m =>
    unfold answer at h
    split_ifs at h <;> cases h <;> exact Or.inl hj
  | recv timeoutMs =>
    obtain ⟨r', -, hr'⟩ := Option.map_eq_some_iff.mp h
    cases r' <;> cases hr' <;> exact Or.inl hj
  | takeTimeout ms | join i =>
    obtain ⟨r', -, hr'⟩ := Option.map_eq_some_iff.mp h
    cases hr'
    exact Or.inl hj

/-- A receive that fails has found the channel empty. It is told of the end only once the egress
tasks are gone, and only one with a timeout times out. -/
theorem ThreadOp.answer_recv {w : Bridge T U} {x x' : Process ι V} {ended : ∀ j, Option (R j)}
    {d : Decision} {timeoutMs : Option Nat} {err : RecvTimeoutError} {e : Option (Act T U)}
    (h : (ThreadOp.recv timeoutMs : ThreadOp ι T U V).answer w x ended d =
      some (.error err, x', e)) :
    e = none ∧ w.outbound.queue = [] ∧ (err = .disconnected → w.outbound.tx = false) ∧
      (timeoutMs = none → err = .disconnected) := by
  obtain ⟨r', hawait, hr'⟩ := Option.map_eq_some_iff.mp h
  cases r' with
  | ok v => cases hr'
  | error e' =>
    cases hr'
    obtain ⟨htx, hgiveUp⟩ := Chan.await_error hawait
    refine ⟨rfl, Chan.queue_of_await hawait, htx, ?_⟩
    intro hnone
    subst hnone
    cases err with
    | disconnected => rfl
    | timeout => cases hgiveUp rfl

/-- A wait for a result that fails leaves none, and is told of the end only once the senders are
gone. -/
theorem ThreadOp.answer_takeTimeout {w : Bridge T U} {x x' : Process ι V}
    {ended : ∀ j, Option (R j)} {d : Decision} {ms : Nat} {err : RecvTimeoutError}
    {e : Option (Act T U)} (h : (ThreadOp.takeTimeout ms : ThreadOp ι T U V).answer w x ended d =
      some (.error err, x', e)) :
    x'.results.queue = [] ∧ (err = .disconnected → x.results.tx = false) := by
  obtain ⟨r', hawait, hr'⟩ := Option.map_eq_some_iff.mp h
  obtain ⟨rfl, hrest⟩ := Prod.mk.inj hr'
  obtain ⟨rfl, rfl⟩ := Prod.mk.inj hrest
  have hnil := Chan.queue_of_await hawait
  refine ⟨?_, (Chan.await_error hawait).1⟩
  show x.results.tryRecv.2.queue = []
  rw [Chan.tryRecv_of_nil hnil]
  exact hnil

theorem ThreadOp.answer_results {w : Bridge T U} {x x' : Process ι V}
    {ended : ∀ j, Option (R j)} {d : Decision} {o : ThreadOp ι T U V} {r : o.Res R}
    {e : Option (Act T U)} (h : o.answer w x ended d = some (r, x', e)) :
    x'.results.tx = x.results.tx := by
  cases o with
  | rt o | sleep ms | spawn j =>
    cases h
    rfl
  | forward v =>
    cases h
    exact Chan.tx_trySend _ _
  | take =>
    cases h
    exact Chan.tx_tryRecv _
  | send m | trySend m =>
    unfold answer at h
    split_ifs at h <;> cases h <;> rfl
  | recv timeoutMs =>
    obtain ⟨r', -, hr'⟩ := Option.map_eq_some_iff.mp h
    cases r' <;> cases hr' <;> rfl
  | takeTimeout ms =>
    obtain ⟨r', -, hr'⟩ := Option.map_eq_some_iff.mp h
    cases hr'
    exact Chan.tx_tryRecv _
  | join j =>
    obtain ⟨r', -, hr'⟩ := Option.map_eq_some_iff.mp h
    cases hr'
    rfl

theorem ThreadOp.answer_take {w : Bridge T U} {x x' : Process ι V} {ended : ∀ j, Option (R j)}
    {d : Decision} {err : TryRecvError} {e : Option (Act T U)}
    (h : (ThreadOp.take : ThreadOp ι T U V).answer w x ended d = some (.error err, x', e)) :
    x'.results.queue = [] := by
  obtain ⟨herr, hrest⟩ := Prod.mk.inj (Option.some.inj h)
  obtain ⟨rfl, rfl⟩ := Prod.mk.inj hrest
  obtain ⟨hnil, hsame, -⟩ := Chan.tryRecv_error herr
  exact (congrArg Chan.queue hsame).trans hnil

/-- A thread that ends so drops the receiver of the DAG's values. -/
def Drops.takesRx : Drops → Bool
  | .rxOut | .both _ => true
  | .nothing | .txIn => false

omit [DecidableEq ι] in
theorem Drops.rx_acted {dr : Drops} (h : ¬ dr.takesRx = true) (w : Bridge T U) :
    (Threads.acted (bridge T U) w dr.act).outbound.rx = w.outbound.rx := by
  cases dr with
  | nothing | txIn => rfl
  | rxOut | both r => exact absurd rfl h

namespace Program

variable (P : Program ι S R T U V)

/-- `main` drops the application and goes on with what comes after. -/
def dropApplication (m : ProcessMoment ι S R T U V σ C) : ProcessMoment ι S R T U V σ C :=
  { loop := { m.loop with world := m.loop.world.hangUp }
    pool := { m.pool with
      shared := { m.pool.shared with
        started := Function.update m.pool.shared.started P.main true
        unbounded := m.pool.shared.unbounded } } }

/-- Where later turns lead after the application was dropped at the moment `m`. -/
def afterDrop (D : Dag T U σ C) (pick : Nat → Nat) (m : ProcessMoment ι S R T U V σ C)
    (later : List (Threads.Turn ι Decision Nat)) : ProcessMoment ι S R T U V σ C :=
  P.threads.run (bridge T U) (D.stage pick) (P.dropApplication m) later

variable {P}

/-! ## What holds throughout -/

omit [DecidableEq ι] in
/-- A result was not refused, only a receive with a timeout times out, a thread that was spawned
runs, and one that was joined has ended. -/
def Attends (ended : ∀ j, Option (R j)) (started : ι → Bool) : ThreadCall ι R T U V → Prop
  | ⟨.forward _, r⟩ => r = .ok ()
  | ⟨.recv timeoutMs, r⟩ => timeoutMs = none → r ≠ .error .timeout
  | ⟨.spawn j, _⟩ => started j = true
  | ⟨.join j, r⟩ => ended j = some r
  | _ => True

omit [DecidableEq ι] in
theorem Attends.mono {ended ended' : ∀ j, Option (R j)} {started started' : ι → Bool}
    (hended : ∀ j r, ended j = some r → ended' j = some r)
    (hstarted : ∀ j, started j = true → started' j = true) {c : ThreadCall ι R T U V}
    (h : Attends ended started c) : Attends ended' started' c := by
  obtain ⟨o, r⟩ := c
  cases o with
  | join j => exact hended j r h
  | spawn j => exact hstarted j h
  | forward v | recv timeoutMs => exact h
  | rt | sleep | send | trySend | take | takeTimeout => trivial

/-- `main` holds the receiver of the results throughout. -/
structure Attended (p : Pool ι (ThreadOp ι T U V) (ThreadOp.Res R) S R (Process ι V)) : Prop where
  rx : p.shared.results.rx = true
  calls : ∀ c ∈ threadCalls p, Attends p.ended p.shared.started c

theorem answer_of_perform {i : ι} {w : Bridge T U} {x : Process ι V}
    {ended : ∀ j, Option (R j)} {d : Decision} {o : ThreadOp ι T U V}
    {a : o.Res R × Process ι V × Option (Act T U)}
    (h : P.threads.perform i w x ended d o = some a) :
    x.started i = true ∧ o.answer w x ended d = some a := by
  by_cases hstarted : x.started i = true
  · exact ⟨hstarted, (if_pos hstarted).symm.trans h⟩
  · exact absurd ((if_neg hstarted).symm.trans h) (by simp)

theorem answer_attended {w : Bridge T U} {x x' : Process ι V} {ended : ∀ j, Option (R j)}
    {d : Decision} {o : ThreadOp ι T U V} {r : o.Res R} {e : Option (Act T U)}
    (h : o.answer w x ended d = some (r, x', e)) (hrx : x.results.rx = true) :
    x'.results.rx = true ∧ (∀ j, x.started j = true → x'.started j = true) ∧
      Attends ended x'.started (⟨o, r⟩ : ThreadCall ι R T U V) := by
  cases o with
  | rt o | sleep ms =>
    cases h
    exact ⟨hrx, fun _ => id, trivial⟩
  | spawn j =>
    cases h
    refine ⟨hrx, ?_, Function.update_self _ _ _⟩
    intro i hi
    by_cases hij : i = j
    · rw [hij]
      exact Function.update_self _ _ _
    · exact (Function.update_of_ne hij _ _).trans hi
  | send m | trySend m =>
    have hsame : x' = x := by
      revert h
      unfold ThreadOp.answer
      split_ifs <;> simp +contextual [eq_comm]
    subst hsame
    exact ⟨hrx, fun _ => id, trivial⟩
  | recv timeoutMs =>
    have hsame : x' = x := by
      obtain ⟨r', -, hr'⟩ := Option.map_eq_some_iff.mp h
      cases r' <;> cases hr' <;> rfl
    subst hsame
    refine ⟨hrx, fun _ => id, ?_⟩
    rintro hnone rfl
    cases (ThreadOp.answer_recv h).2.2.2 hnone
  | forward v =>
    have hok := Chan.trySend_ok x.unbounded hrx v
    rw [ThreadOp.answer, hok] at h
    cases h
    exact ⟨(Chan.rx_trySend _ _).trans hrx, fun _ => id, rfl⟩
  | take =>
    cases h
    exact ⟨(Chan.rx_tryRecv _).trans hrx, fun _ => id, trivial⟩
  | takeTimeout ms =>
    obtain ⟨r', -, hr'⟩ := Option.map_eq_some_iff.mp h
    cases hr'
    exact ⟨(Chan.rx_tryRecv _).trans hrx, fun _ => id, trivial⟩
  | join j =>
    obtain ⟨r', hended, hr'⟩ := Option.map_eq_some_iff.mp h
    cases hr'
    exact ⟨hrx, fun _ => id, hended⟩

theorem started_dropApplication (m : ProcessMoment ι S R T U V σ C) :
    (∀ j, m.pool.shared.started j = true →
      (P.dropApplication m).pool.shared.started j = true) ∧
      (P.dropApplication m).pool.shared.started P.main = true := by
  refine ⟨?_, Function.update_self _ _ _⟩
  intro j hj
  by_cases hmain : j = P.main
  · rw [hmain]
    exact Function.update_self _ _ _
  · exact (Function.update_of_ne hmain _ _).trans hj

theorem attended_dropApplication {m : ProcessMoment ι S R T U V σ C} (h : Attended m.pool) :
    Attended (P.dropApplication m).pool :=
  ⟨h.rx, fun c hc => (h.calls c hc).mono (fun _ _ => id) (started_dropApplication m).1⟩

section Moves

variable {p p' : Pool ι (ThreadOp ι T U V) (ThreadOp.Res R) S R (Process ι V)} {w : Bridge T U}
  {i : ι} {e : Option (Act T U)}

theorem Attended.started (h : Attended p) (hmoves : P.threads.Moves w p i p' e) {j : ι}
    (hj : p.shared.started j = true) : p'.shared.started j = true := by
  cases hmoves with
  | stay | round s _ _ => exact hj
  | exit r _ _ => exact (congrFun (P.exit_shared i r p.shared).2.2 j).trans hj
  | call d k r x e _ _ hperform =>
    exact (answer_attended (answer_of_perform hperform).2 h.rx).2.1 j hj

theorem Attended.moves (h : Attended p) (hmoves : P.threads.Moves w p i p' e) : Attended p' := by
  have hearlier (c : ThreadCall ι R T U V) (hc : c ∈ threadCalls p) :
      Attends p'.ended p'.shared.started c :=
    (h.calls c hc).mono hmoves.monotone.1 fun _ hj => h.started hmoves hj
  cases hmoves with
  | stay | round s _ _ => exact ⟨h.rx, h.calls⟩
  | exit r _ _ => exact ⟨(P.exit_shared i r p.shared).2.1.trans h.rx, hearlier⟩
  | call d k r x e _ _ hperform =>
    obtain ⟨hrx, -, hattends⟩ := answer_attended (answer_of_perform hperform).2 h.rx
    refine ⟨hrx, ?_⟩
    rw [threadCalls_record]
    refine List.forall_mem_append.mpr ⟨hearlier, ?_⟩
    intro c hc
    rw [List.mem_singleton.mp hc]
    exact hattends

end Moves

theorem started_run {M : Type} {body : Nat → M → Io T U M}
    {m : System (Op T U) Op.Res (Act T U) Bool (Bridge T U) M ι (ThreadOp ι T U V)
      (ThreadOp.Res R) S R (Process ι V)}
    (h : Attended m.pool) {j : ι} (hj : m.pool.shared.started j = true)
    (turns : List (Threads.Turn ι Decision Nat)) :
    (P.threads.run (bridge T U) body m turns).pool.shared.started j = true :=
  (P.threads.run_pool (bridge T U) body (J := fun p => Attended p ∧ p.shared.started j = true)
    ⟨h, hj⟩ (fun _ _ _ _ _ h hmoves => ⟨h.1.moves hmoves, h.1.started hmoves h.2⟩) turns).2

/-- An end of a channel is gone only with a thread that held it. -/
structure Holds (P : Program ι S R T U V) (w : Bridge T U)
    (p : Pool ι (ThreadOp ι T U V) (ThreadOp.Res R) S R (Process ι V)) : Prop where
  rx : w.outbound.rx = false → ∃ i r, (P.drops i r).takesRx = true ∧ p.ended i = some r
  results : p.shared.results.tx = false ↔
    ∃ i r, P.holdsResults i = true ∧ p.ended i = some r

/-- What holds from the start of the driver on. -/
structure Running (P : Program ι S R T U V) (w : Bridge T U) (ls : List (Event T U))
    (p : Pool ι (ThreadOp ι T U V) (ThreadOp.Res R) S R (Process ι V)) : Prop where
  follows : P.threads.Follows p
  attended : Attended p
  exchanged : Exchanged w ls p
  holds : Holds P w p
  driver : p.shared.started P.driver = true

section Running

variable {w : Bridge T U} {ls : List (Event T U)} {i : ι} {e : Option (Act T U)}
  {p p' : Pool ι (ThreadOp ι T U V) (ThreadOp.Res R) S R (Process ι V)}

theorem Holds.moves (h : Holds P w p) (hmoves : P.threads.Moves w p i p' e) :
    Holds P (Threads.acted (bridge T U) w e) p' := by
  have hstays {j : ι} {r : R j} (hr : p.ended j = some r) : p'.ended j = some r :=
    hmoves.monotone.1 j r hr
  cases hmoves with
  | stay | round s _ _ => exact ⟨h.rx, h.results⟩
  | exit r hrunning _ =>
    have hends : (P.threads.leave p i r).ended i = some r := Function.update_self _ _ _
    refine ⟨fun hrx => ?_, fun htx => ?_, fun hholds => ?_⟩
    · by_cases htakes : (P.drops i r).takesRx = true
      · exact ⟨i, r, htakes, hends⟩
      · obtain ⟨j, r', hj, hr'⟩ := h.rx ((Drops.rx_acted htakes w).symm.trans hrx)
        exact ⟨j, r', hj, hstays hr'⟩
    · by_cases hholds : P.holdsResults i = true
      · exact ⟨i, r, hholds, hends⟩
      · have hsame : (P.threads.leave p i r).shared = p.shared := if_neg hholds
        obtain ⟨j, r', hj, hr'⟩ := h.results.mp (hsame ▸ htx)
        exact ⟨j, r', hj, hstays hr'⟩
    · show (P.threads.exit i r p.shared).1.results.tx = false
      by_cases hi : P.holdsResults i = true
      · simp only [threads, if_pos hi]
        rfl
      · simp only [threads, if_neg hi]
        obtain ⟨j, r', hj, hr'⟩ := hholds
        have hne : j ≠ i := by
          intro heq
          subst heq
          exact hi hj
        exact h.results.mpr ⟨j, r', hj, (Function.update_of_ne hne _ _).symm.trans hr'⟩
  | call d k r x e _ _ hperform =>
    obtain ⟨-, hanswer⟩ := answer_of_perform hperform
    refine ⟨fun hrx => h.rx ((ThreadOp.answer_outbound hanswer).2.symm.trans hrx), ?_⟩
    show x.results.tx = false ↔ _
    rw [ThreadOp.answer_results hanswer]
    exact h.results

theorem Running.call (h : P.Running w ls p) (o : Op T U) :
    P.Running (w.handle o).2 (ls ++ [.call ⟨o, (w.handle o).1⟩]) p :=
  ⟨h.follows, h.attended, h.exchanged.call o,
    ⟨fun hrx => h.holds.rx ((w.ends_handle o).2.symm.trans hrx), h.holds.results⟩, h.driver⟩

theorem Running.ambient (h : P.Running w ls p) (t : Nat) :
    P.Running (w.act (.clock t)).2 (ls ++ [.env (.clock t) (w.act (.clock t)).1]) p :=
  ⟨h.follows, h.attended, h.exchanged.ambient t, ⟨h.holds.rx, h.holds.results⟩, h.driver⟩

theorem Running.moves (h : P.Running w ls p) (hmoves : P.threads.Moves w p i p' e) :
    P.Running (Threads.acted (bridge T U) w e) (ls ++ Threads.actLabels (bridge T U) w e) p' :=
  ⟨h.follows.moves hmoves, h.attended.moves hmoves, h.exchanged.moves hmoves,
    h.holds.moves hmoves, h.attended.started hmoves h.driver⟩

/-- What holds while `main` iterates: the DAG is there, and no thread was told that it is not. -/
structure Serving (P : Program ι S R T U V) (w : Bridge T U) (ls : List (Event T U))
    (p : Pool ι (ThreadOp ι T U V) (ThreadOp.Res R) S R (Process ι V)) : Prop
    extends P.Running w ls p where
  tx : w.outbound.tx = true
  told : ∀ timeoutMs, ⟨.recv timeoutMs, .error .disconnected⟩ ∉ threadCalls p

theorem Serving.call (h : P.Serving w ls p) (o : Op T U) :
    P.Serving (w.handle o).2 (ls ++ [.call ⟨o, (w.handle o).1⟩]) p := by
  refine ⟨h.toRunning.call o, ?_, h.told⟩
  cases o with
  | send v => exact (Chan.tx_trySend _ _).trans h.tx
  | tryRecv | len | now => exact h.tx

theorem Serving.ambient (h : P.Serving w ls p) (t : Nat) :
    P.Serving (w.act (.clock t)).2 (ls ++ [.env (.clock t) (w.act (.clock t)).1]) p :=
  ⟨h.toRunning.ambient t, h.tx, h.told⟩

theorem Serving.moves (h : P.Serving w ls p) (hmoves : P.threads.Moves w p i p' e) :
    P.Serving (Threads.acted (bridge T U) w e) (ls ++ Threads.actLabels (bridge T U) w e) p' := by
  refine ⟨h.toRunning.moves hmoves, (w.outbound_tx_acted e).trans h.tx, ?_⟩
  cases hmoves with
  | stay | round s _ _ | exit r _ _ => exact h.told
  | call d k r x e _ _ hperform =>
    intro timeoutMs hmem
    rw [threadCalls_record, List.mem_append, List.mem_singleton] at hmem
    rcases hmem with hmem | hlast
    · exact h.told timeoutMs hmem
    · cases hlast
      have hgone := (ThreadOp.answer_recv (answer_of_perform hperform).2).2.2.1 rfl
      rw [h.tx] at hgone
      cases hgone

/-- What holds from the moment on when `main` has dropped the application. -/
structure Closing (P : Program ι S R T U V) (w : Bridge T U) (ls : List (Event T U))
    (p : Pool ι (ThreadOp ι T U V) (ThreadOp.Res R) S R (Process ι V)) : Prop
    extends P.Running w ls p where
  hungUp : HungUp w
  main : p.shared.started P.main = true
  /-- A thread is told of the end when everything is received. -/
  drained : ∀ timeoutMs, ⟨.recv timeoutMs, .error .disconnected⟩ ∈ threadCalls p →
    w.outbound.queue = []

theorem Closing.moves (h : P.Closing w ls p) (hmoves : P.threads.Moves w p i p' e) :
    P.Closing (Threads.acted (bridge T U) w e) (ls ++ Threads.actLabels (bridge T U) w e) p' := by
  refine ⟨h.toRunning.moves hmoves, h.hungUp.acted e, h.attended.started hmoves h.main, ?_⟩
  cases hmoves with
  | stay | round s _ _ => exact h.drained
  | exit r _ _ =>
    intro timeoutMs hmem
    exact (Exchanged.act_drops w (P.drops i r)).1.trans (h.drained timeoutMs hmem)
  | call d k r x e _ _ hperform =>
    obtain ⟨-, hanswer⟩ := answer_of_perform hperform
    intro timeoutMs hmem
    rw [threadCalls_record, List.mem_append, List.mem_singleton] at hmem
    rcases hmem with hmem | hlast
    · have hout := (ThreadOp.answer_law hanswer).1
      exact (List.append_eq_nil_iff.mp (hout.symm.trans (h.drained timeoutMs hmem))).2
    · cases hlast
      obtain ⟨rfl, hnil, -⟩ := ThreadOp.answer_recv hanswer
      exact hnil

theorem Closing.ambient (h : P.Closing w ls p) (t : Nat) :
    P.Closing (w.act (.clock t)).2 (ls ++ [.env (.clock t) (w.act (.clock t)).1]) p :=
  ⟨h.toRunning.ambient t, h.hungUp.act _, h.main, h.drained⟩

end Running

variable (P) in
theorem serving_run (D : Dag T U σ C) (pick : Nat → Nat) (rt : Runtime σ C) (capacity : Capacity)
    (clock : Nat) (turns : List (Threads.Turn ι Decision Nat)) :
    let m := P.run D pick rt (TransportDriver.spawnWith (Chan.fresh capacity) clock) turns
    P.Serving m.loop.world (Moment.events m.loop) m.pool := by
  refine P.threads.run_track (bridge T U) (D.stage pick) (J := P.Serving) ?_
    (fun _ _ _ _ o h => h.call o) (fun _ _ _ t h => h.ambient t)
    (fun _ _ _ _ _ _ h hmoves => h.moves hmoves)
  refine ⟨⟨Threads.follows_start _, ⟨rfl, by simp [threadCalls, Threads.start]⟩, ⟨rfl, rfl, rfl⟩,
    ⟨?_, ?_⟩, decide_eq_true rfl⟩, rfl, by simp [threadCalls, Threads.start]⟩
  · intro hrx
    cases hrx
  · simp [Threads.start, process, Chan.fresh]

/-- Dropping the application takes nothing back. -/
theorem Serving.dropApplication {m : ProcessMoment ι S R T U V σ C}
    (h : P.Serving m.loop.world (Moment.events m.loop) m.pool) :
    P.Closing (P.dropApplication m).loop.world (Moment.events (P.dropApplication m).loop)
      (P.dropApplication m).pool := by
  obtain ⟨hstarted, hmain⟩ := started_dropApplication (P := P) m
  exact ⟨⟨⟨h.follows.at_cur, h.follows.ended⟩, attended_dropApplication h.attended,
    ⟨h.exchanged.outbound, h.exchanged.inbound, h.exchanged.results⟩,
    ⟨h.holds.rx, h.holds.results⟩, hstarted _ h.driver⟩, hungUp_hangUp m.loop.world, hmain,
    fun timeoutMs hmem => absurd hmem (h.told timeoutMs)⟩

theorem calls_afterDrop (D : Dag T U σ C) (pick : Nat → Nat) (m : ProcessMoment ι S R T U V σ C)
    {later : List (Threads.Turn ι Decision Nat)} (hrest : ∀ t ∈ later, t ≠ .loop) :
    (P.afterDrop D pick m later).loop.calls = m.loop.calls :=
  (P.threads.run_resting (bridge T U) (D.stage pick) (P.dropApplication m) hrest).2

theorem threadCalls_afterDrop (D : Dag T U σ C) (pick : Nat → Nat)
    (m : ProcessMoment ι S R T U V σ C) (later : List (Threads.Turn ι Decision Nat)) :
    threadCalls m.pool <+: threadCalls (P.afterDrop D pick m later).pool :=
  (P.threads.trace_run (bridge T U) (D.stage pick) (P.dropApplication m) later).map Prod.snd

/-- After the DAG has hung up a thread is blocked at most by a thread it waits for, and by a result
while the driver can send one. -/
theorem Closing.unblocked {m : ProcessMoment ι S R T U V σ C}
    (h : P.Closing m.loop.world (Moment.events m.loop) m.pool) {i : ι}
    (hstarted : m.pool.shared.started i = true)
    (hjoin : ∀ j k, m.pool.cur i = .call (.join j) k → (m.pool.ended j).isSome = true)
    (htake : ∀ ms k, m.pool.cur i = .call (.takeTimeout ms) k →
      m.pool.shared.results.tx = false) : Threads.Unblocked P.threads i m := by
  intro d o k _ hcur
  have hanswer : (o.answer m.loop.world m.pool.shared m.pool.ended d).isSome = true := by
    refine ThreadOp.answer_isSome h.hungUp ?_ ?_ d
    · intro j hj
      subst hj
      exact hjoin j k hcur
    · intro ms hms
      subst hms
      exact htake ms k hcur
  exact (congrArg Option.isSome (if_pos hstarted)).trans hanswer

/-! ## What is lost, and who is released -/

/-- The calls on the bridge. -/
def OnBridge : ThreadOp ι T U V → Prop
  | .send _ => True
  | .trySend _ => True
  | .recv _ => True
  | _ => False

theorem offered_of_hungUp {w : Bridge T U} {x x' : Process ι V} {ended : ∀ j, Option (R j)}
    {d : Decision} {o : ThreadOp ι T U V} {r : o.Res R} {e : Option (Act T U)} (hw : HungUp w)
    (h : o.answer w x ended d = some (r, x', e)) :
    offered [(⟨o, r⟩ : ThreadCall ι R T U V)] = [] := by
  have hends : ¬ (w.inbound.tx = true ∧ w.inbound.rx = true) := by
    intro hends
    cases hw.rx.symm.trans hends.2
  cases o with
  | send m | trySend m =>
    rw [ThreadOp.answer, if_neg hends] at h
    cases h
    rfl
  | rt | sleep | recv | forward | take | takeTimeout | spawn | join => rfl

theorem Closing.offered_moves {w : Bridge T U} {ls : List (Event T U)} {i : ι}
    {e : Option (Act T U)}
    {p p' : Pool ι (ThreadOp ι T U V) (ThreadOp.Res R) S R (Process ι V)}
    (h : P.Closing w ls p) (hmoves : P.threads.Moves w p i p' e) :
    offered (threadCalls p') = offered (threadCalls p) := by
  cases hmoves with
  | stay | round s _ _ | exit r _ _ => rfl
  | call d k r x e _ _ hperform =>
    obtain ⟨-, hanswer⟩ := answer_of_perform hperform
    rw [threadCalls_record, offered_append, offered_of_hungUp h.hungUp hanswer, List.append_nil]

theorem closing_offered (D : Dag T U σ C) (pick : Nat → Nat) {m : ProcessMoment ι S R T U V σ C}
    (h : P.Serving m.loop.world (Moment.events m.loop) m.pool)
    {later : List (Threads.Turn ι Decision Nat)} (hrest : ∀ t ∈ later, t ≠ .loop) :
    let c := P.afterDrop D pick m later
    P.Closing c.loop.world (Moment.events c.loop) c.pool ∧
      offered (threadCalls c.pool) = offered (threadCalls m.pool) :=
  P.threads.run_track (bridge T U) (D.stage pick)
    (J := fun w ls p => P.Closing w ls p ∧ offered (threadCalls p) = offered (threadCalls m.pool))
    ⟨h.dropApplication, rfl⟩ (fun hmem => absurd rfl (hrest _ hmem))
    (fun _ _ _ t h => ⟨h.1.ambient t, h.2⟩)
    (fun _ _ _ _ _ _ h hmoves => ⟨h.1.moves hmoves, h.1.offered_moves hmoves ▸ h.2⟩)

/-- A transport that sends two messages and ends. -/
def twoSender : Program Unit (fun _ => Empty) (fun _ => Except String Unit) UInt8 UInt8 Empty where
  routine _ :=
    { first := do
        let _ ← (Code.send 1 : Code Unit (fun _ => Except String Unit) UInt8 UInt8 Empty _)
        let r ← (Code.send 2 : Code Unit (fun _ => Except String Unit) UInt8 UInt8 Empty _)
        return .inr r
      again := Empty.elim }
  drops _ r := .both r
  holdsResults _ := false
  driver := ()
  main := ()

/-- **What a shutdown loses.** Let `main` drop the application after any order of the moves of the
runtime and the threads. From then on, whatever the threads do, no further message is accepted, and
what was queued for the DAG at that moment is all that the DAG never receives; what the DAG has
delivered is received in order, and all of it has been when a thread is told of the end. -/
theorem shutdown_exact (P : Program ι S R T U V) (D : Dag T U σ C) (pick : Nat → Nat)
    (rt : Runtime σ C) (capacity : Capacity) (clock : Nat)
    (turns : List (Threads.Turn ι Decision Nat)) {later : List (Threads.Turn ι Decision Nat)}
    (hrest : ∀ t ∈ later, t ≠ .loop) :
    let m := P.run D pick rt (TransportDriver.spawnWith (Chan.fresh capacity) clock) turns
    let c := P.afterDrop D pick m later
    offered (threadCalls c.pool) = received m.loop.calls ++ m.loop.world.inbound.queue ∧
      c.loop.calls = m.loop.calls ∧
      taken (threadCalls c.pool) <+: delivered m.loop.calls ∧
      ∀ ms, ⟨.recv ms, .error .disconnected⟩ ∈ threadCalls c.pool →
        taken (threadCalls c.pool) = delivered m.loop.calls := by
  intro m c
  have hserving : P.Serving m.loop.world (Moment.events m.loop) m.pool :=
    P.serving_run D pick rt capacity clock turns
  have hcalls : c.loop.calls = m.loop.calls := calls_afterDrop D pick m hrest
  have hbacklog : offered (threadCalls m.pool) =
      received m.loop.calls ++ m.loop.world.inbound.queue :=
    (P.exchange D pick rt capacity clock turns).1
  obtain ⟨hclosing, hoffered⟩ := closing_offered D pick hserving hrest
  have hout : delivered c.loop.calls = _ := hclosing.exchanged.outbound
  rw [hcalls] at hout
  refine ⟨hoffered.trans hbacklog, hcalls, hout ▸ List.prefix_append _ _, fun ms hmem => ?_⟩
  rw [hout, hclosing.drained ms hmem, List.append_nil]

/-- One message is queued for the DAG, the second one is refused. -/
theorem shutdown_exact_two :
    offered (threadCalls (twoSender.afterDrop (messages relay).dag (fun _ => 0)
      (twoSender.run (messages relay).dag (fun _ => 0)
        (.start (FsmTask.default relay) (fun _ => (.new none, .new none)) 5)
        (TransportDriver.spawnWith (Chan.fresh none) 40) [.thread () .calm])
      [.thread () .calm]).pool) = [1] := by
  have hrest : ∀ t ∈ [(.thread () .calm : Threads.Turn Unit Decision Nat)], t ≠ .loop := by simp
  exact (shutdown_exact twoSender (messages relay).dag (fun _ => 0)
    (.start (FsmTask.default relay) (fun _ => (.new none, .new none)) 5) none 40
    [.thread () .calm] hrest).1

/-- **A shutdown releases the transport.** After `main` has dropped the application, under any
scheduler that lets thread `i` move again and again, a call on the bridge the thread is at returns,
and no message is accepted by it. -/
theorem shutdown_releases (P : Program ι S R T U V) (D : Dag T U σ C) (pick : Nat → Nat)
    (rt : Runtime σ C) (capacity : Capacity) (clock : Nat)
    (turns : List (Threads.Turn ι Decision Nat)) {f : Nat → Threads.Turn ι Decision Nat}
    (hrest : ∀ n, f n ≠ .loop) {i : ι} (hfair : Threads.Fair f i) {o : ThreadOp ι T U V}
    (ho : OnBridge o) {k : o.Res R → Code ι R T U V (S i ⊕ R i)} (n : Nat) :
    let m := P.run D pick rt (TransportDriver.spawnWith (Chan.fresh capacity) clock) turns
    let c (n : Nat) := P.afterDrop D pick m (Threads.turns f n)
    (c n).pool.shared.started i = true → (c n).pool.ended i = none →
    (c n).pool.cur i = .call o k →
      ∃ n' r, n ≤ n' ∧ Threads.Makes i ⟨o, r⟩ (k r) (c n).pool (c n').pool ∧
        offered [(⟨o, r⟩ : ThreadCall ι R T U V)] = [] := by
  intro m c hstarted hrunning hcur
  have hserving : P.Serving m.loop.world (Moment.events m.loop) m.pool :=
    P.serving_run D pick rt capacity clock turns
  have hclosing (n : Nat) : P.Closing (c n).loop.world (Moment.events (c n).loop) (c n).pool ∧
      offered (threadCalls (c n).pool) = offered (threadCalls m.pool) :=
    closing_offered D pick hserving (Threads.forall_turns hrest n)
  have hadd (l : Nat) : c (n + l) = P.threads.run (bridge T U) (D.stage pick) (c n)
      (Threads.turns (fun l => f (n + l)) l) := by
    simp only [c, afterDrop, Threads.turns_add, Threads.run_append]
  have hreleased : Threads.Released P.threads (bridge T U) (D.stage pick) (c n)
      (fun l => f (n + l)) i := by
    refine .of_call hcur fun _ => ⟨0, fun l _ d => ?_⟩
    have hgo : (P.threads.run (bridge T U) (D.stage pick) (c n)
        (Threads.turns (fun l => f (n + l)) l)).pool.shared.started i = true :=
      started_run (hclosing n).1.attended hstarted _
    rw [← hadd] at hgo ⊢
    refine (congrArg Option.isSome (if_pos hgo)).trans
      (ThreadOp.answer_isSome (hclosing (n + l)).1.hungUp ?_ ?_ d)
    · rintro j rfl
      exact ho.elim
    · rintro ms rfl
      exact ho.elim
  obtain ⟨l, r, hmakes⟩ := Threads.makes_call hreleased (hfair.drop n) hrunning hcur
  rw [← hadd] at hmakes
  refine ⟨n + l, r, Nat.le_add_right n l, hmakes, ?_⟩
  obtain ⟨later, hlater⟩ : (c n).pool.trace <+: (c (n + l)).pool.trace :=
    hadd l ▸ P.threads.trace_run _ _ _ _
  have hcalls := hmakes.calls
  have hnone := (hclosing (n + l)).2.trans (hclosing n).2.symm
  rw [← hlater, callsOf_append] at hcalls
  rw [threadCalls, ← hlater, List.map_append, offered_append] at hnone
  have hmem : (⟨o, r⟩ : ThreadCall ι R T U V) ∈ later.map Prod.snd := by
    refine List.mem_map.mpr ⟨(i, ⟨o, r⟩), mem_callsOf.mp ?_, rfl⟩
    rw [List.append_cancel_left hcalls]
    exact List.mem_singleton.mpr rfl
  have hrefused := List.filterMap_eq_nil_iff.mp (List.append_right_eq_self.mp hnone) _ hmem
  simp [offered, hrefused]

/-- The second message waits for room when `main` drops the application, and is refused. -/
theorem shutdown_releases_two :
    let c (n : Nat) := twoSender.afterDrop (messages relay).dag (fun _ => 0)
      (twoSender.run (messages relay).dag (fun _ => 0)
        (.start (FsmTask.default relay) (fun _ => (.new none, .new none)) 5)
        (TransportDriver.spawnWith (Chan.fresh (some ⟨1, Nat.one_pos⟩)) 40)
        [.thread () .calm, .thread () .calm])
      (Threads.turns (fun _ => .thread () .calm) n)
    ∃ n r, callsOf () (c n).pool.trace = [⟨.send 1, .ok ()⟩, ⟨.send 2, r⟩] := by
  intro c
  obtain ⟨n, r, -, hmakes, -⟩ := shutdown_releases twoSender (messages relay).dag (fun _ => 0)
    (.start (FsmTask.default relay) (fun _ => (.new none, .new none)) 5) (some ⟨1, Nat.one_pos⟩) 40
    [.thread () .calm, .thread () .calm] (f := fun _ => .thread () .calm)
    (fun n hloop => by cases hloop) (i := ()) (fun n => ⟨n, Nat.le_refl n, .calm, rfl⟩)
    (o := .send 2) trivial 0 rfl rfl rfl
  exact ⟨n, r, hmakes.calls⟩

end Program

end Msrs
