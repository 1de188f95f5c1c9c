import Msrs.Runtime.Service
import Msrs.Runtime.Drains

/-!
# A bounded inbound channel

A service on a bridge from `spawn_bounded`, while the transport sends with `send` or `try_send`
as it likes. The backlog stays within the capacity, a message is refused exactly while the
channel is full, what is accepted is handed over once and in order, no iteration waits for the
transport, and every iteration makes room for a sender that is waiting (`bounded_inbound`).
-/

namespace Msrs

open Interleave Fifo

variable {T U S A B : Type}

/-- The inbound channel holds at most `c` messages and the DAG holds its end of it. -/
def Bridge.Bounded (c : { c : Nat // 0 < c }) (w : Bridge T U) : Prop :=
  w.inbound.cap = some c ∧ w.inbound.rx = true

namespace Bridge.Bounded

variable {c : { c : Nat // 0 < c }} {w w' : Bridge T U}

theorem legal {ls : List (Event T U)} (h : w.Bounded c) (hlegal : (bridge T U).Legal w ls w') :
    w'.Bounded c :=
  ⟨(inbound_law hlegal).1.trans h.1, (inbound_law hlegal).2.trans h.2⟩

theorem length_le (h : w.Bounded c) : w.inbound.queue.length ≤ c.val := w.inbound.fits c h.1

/-- A transport that holds a sender is refused exactly while the channel is full. -/
theorem refused_iff (h : w.Bounded c) (htx : w.inbound.tx = true) (x : T) :
    (w.offer x).1 = false ↔ w.inbound.queue.length = c.val := by
  have hle := h.length_le
  have hok : (w.offer x).1 = true ↔ w.inbound.queue.length < c.val := by
    rw [Bridge.offer, if_pos htx]
    exact Chan.trySend_isOk_iff h.1 h.2 x
  rw [← Bool.not_eq_true, hok]
  omega

theorem room_of_attempt {r : Except TryRecvError T} (h : w.Bounded c)
    (hlegal : (bridge T U).Legal w [Event.attempt r] w') : w'.inbound.queue.length < c.val := by
  obtain ⟨-, rfl⟩ := hlegal
  exact Chan.room_tryRecv h.1

theorem room_legal {ls : List (Event T U)} (hroom : w.inbound.queue.length < c.val)
    (hnone : accepted ls = []) (hlegal : (bridge T U).Legal w ls w') :
    w'.inbound.queue.length < c.val := by
  have hlaw := congrArg List.length (queue_law hlegal)
  rw [hnone, List.append_nil, List.length_append] at hlaw
  omega

end Bridge.Bounded

variable (ingress : Ingress T A) (adapter : Adapter A S B) (egress : Egress U B)
  (pick : Nat → Nat) (ring : Nat → Slots A B) (id : UInt64) (sched : Schedule T U)

theorem exists_attempt (w : Bridge T U) {i : Nat} :
    let m := serviceRun ingress adapter egress pick ring id w sched
    3 * i < m.stage → ∃ pre r post, m.hist = pre ++ (3 * i, Event.attempt r) :: post := by
  intro m hi
  obtain ⟨f, hstages, hcalls⟩ : ∃ f, Pipeline.Stages (service ingress adapter egress)
      (serviceContract ingress adapter egress) m.stage m.mem f ∧
        ∀ i, i ≠ m.stage → calls (m.ofStage i) = f i :=
    Pipeline.stages (service_meets ingress adapter egress) pick _ ring id w sched
  have hlength : (Pipeline.filled m.stage m.mem).length = (m.stage + 2) / 3 :=
    Pipeline.length_filled (logged_serviceRun ingress adapter egress pick ring id sched w)
  have hlt : i < (Pipeline.filled m.stage m.mem).length := by omega
  obtain ⟨a₀, r, hsrc⟩ := hstages.source i _ (List.getElem?_eq_getElem hlt)
  obtain ⟨res, rest, hfirst⟩ := Ingress.attempt_of_process hsrc
  have hstage : calls (m.ofStage (3 * i)) = [] ++ ⟨.tryRecv, res⟩ :: rest :=
    (hcalls _ (Nat.ne_of_lt hi)).trans hfirst
  obtain ⟨pre, post, hcut, -⟩ := cut_of_calls hstage
  exact ⟨pre, res, post, hcut⟩

theorem serviceRun_take_le (w : Bridge T U) {n n' : Nat} (h : n ≤ n') :
    ∃ ls, (serviceRun ingress adapter egress pick ring id w (sched.take n')).events =
        (serviceRun ingress adapter egress pick ring id w (sched.take n)).events ++ ls ∧
      (bridge T U).Legal (serviceRun ingress adapter egress pick ring id w (sched.take n)).world ls
        (serviceRun ingress adapter egress pick ring id w (sched.take n')).world := by
  have hsplit : sched.take n' = sched.take n ++ (sched.take n').drop n := by
    have htake := List.take_append_drop n (sched.take n')
    rw [List.take_take, Nat.min_eq_left h] at htake
    exact htake.symm
  rw [hsplit]
  exact Dag.events_append _ pick _ w (sched.take n) _

/-- After its receive attempt an iteration has left room, until something is accepted. -/
theorem room_after_attempt {c : { c : Nat // 0 < c }} {w : Bridge T U} (hw : w.Bounded c)
    {i : Nat} :
    let run := serviceRun ingress adapter egress pick ring id w
    3 * i < (run sched).stage → ∃ n r,
      (run (sched.take n)).hist.getLast? = some (3 * i, Event.attempt r) ∧
      ∀ n', n ≤ n' →
        accepted (run (sched.take n')).events = accepted (run (sched.take n)).events →
        (run (sched.take n')).world.inbound.queue.length < c.val := by
  intro run hi
  obtain ⟨pre, r, post, hcut⟩ := exists_attempt ingress adapter egress pick ring id sched w hi
  have hcut' : (run sched).hist = (pre ++ [(3 * i, Event.attempt r)]) ++ post := by
    rw [List.append_assoc]
    exact hcut
  obtain ⟨n, hn, hlegal, -⟩ :=
    Dag.exists_moment (service ingress adapter egress).dag pick _ w sched hcut'
  change (run (sched.take n)).hist = _ at hn
  rw [List.map_append] at hlegal
  obtain ⟨v, hv, hattempt⟩ := ((bridge T U).legal_append _ _ _ _).mp hlegal
  have hroom := (hw.legal hv).room_of_attempt hattempt
  refine ⟨n, r, by rw [hn, List.getLast?_append]; rfl, ?_⟩
  intro n' hle hsame
  obtain ⟨ls, hevents, hlater⟩ :=
    serviceRun_take_le ingress adapter egress pick ring id sched w hle
  change (run (sched.take n')).events = (run (sched.take n)).events ++ ls at hevents
  rw [hevents, accepted_append] at hsame
  exact Bridge.Bounded.room_legal hroom (List.append_right_eq_self.mp hsame) hlater

/-- **A bounded inbound channel.** At every moment of every run of a service on a channel that
holds at most `c` messages:

* the backlog is at most `c`,
* a message is refused, or waits, exactly when `c` messages are queued,
* the accepted messages, and no others, have been handed over, are on their way there or are
  queued, once each and in the order of acceptance,
* if only the loop is let move, every iteration is completed, whatever the transport does or
  does not do,
* and every iteration has made a receive attempt, from which on a sender can proceed until
  something is accepted. -/
theorem bounded_inbound (ingress : Ingress T A) (adapter : Adapter A S B) (egress : Egress U B)
    (pick : Nat → Nat) (ring : Nat → Slots A B) (id : UInt64) (c : { c : Nat // 0 < c })
    (clock : Nat) (sched : Schedule T U) :
    let run := serviceRun ingress adapter egress pick ring id (TransportDriver.spawnBounded c clock)
    let m := run sched
    m.world.inbound.queue.length ≤ c.val ∧
    (m.world.inbound.tx = true → ∀ x,
      ((m.world.act (.trySend x)).1 = false ↔ m.world.inbound.queue.length = c.val) ∧
      ((m.world.act (.send x)).1 = false ↔ m.world.inbound.queue.length = c.val)) ∧
    accepted m.events = (Pipeline.handed m.stage m.mem).flatMap ingress.arrivals ++
      Pipeline.inflight (serviceContract ingress adapter egress) m ++ m.world.inbound.queue ∧
    (∀ f : Nat → Shared.Choice (Act T U), Shared.Fair f →
      ∀ i, ∃ n, 3 * i ≤ (run (sched ++ Shared.first f n)).stage) ∧
    ∀ i, 3 * i < m.stage → ∃ n r,
      (run (sched.take n)).hist.getLast? = some (3 * i, Event.attempt r) ∧
      ∀ n', n ≤ n' →
        accepted (run (sched.take n')).events = accepted (run (sched.take n)).events →
        (run (sched.take n')).world.inbound.tx = true →
        ∀ x, ((run (sched.take n')).world.act (.send x)).1 = true := by
  intro run m
  have hstart : (TransportDriver.spawnBounded c clock : Bridge T U).Bounded c := ⟨rfl, rfl⟩
  have hbounded (sched : Schedule T U) : (run sched).world.Bounded c :=
    hstart.legal (legal_serviceRun ingress adapter egress pick ring id sched _)
  refine ⟨(hbounded sched).length_le, ?_, ?_, ?_, ?_⟩
  · intro htx x
    exact ⟨(hbounded sched).refused_iff htx x, (hbounded sched).refused_iff htx x⟩
  · exact (service_refines ingress adapter egress pick ring id sched rfl).accepted
  · intro f hf i
    simp only [run, serviceRun_append]
    exact Shared.reaches_stage (bridge T U) _ _ hf (3 * i)
  · intro i hi
    obtain ⟨n, r, hlast, hroom⟩ :=
      room_after_attempt ingress adapter egress pick ring id sched hstart hi
    refine ⟨n, r, hlast, ?_⟩
    intro n' hle hsame htx x
    have hstill : (run (sched.take n')).world.inbound.queue.length < c.val :=
      hroom n' hle hsame
    by_contra hrefused
    have hfull := ((hbounded (sched.take n')).refused_iff htx x).mp
      ((Bool.not_eq_true _).mp hrefused)
    omega

end Msrs
