import Msrs.Cu

/-!
# The bridge between a transport and the DAG

`driver.rs`: a transport runs on its own thread and shares two channels with the DAG. This file
gives the operations of `Msrs.Cu` their meaning on that shared state and lists what the
transport's side may do to it at any moment: send, receive, drop either of its ends, return from
`Transport::run`. The clock moves on its own.

The laws at the end hold of every legal list of events, whatever the tasks are.

* `queue_law` — the inbound channel hands out exactly what it accepted, in order.
* `tx_law` — a transport that has dropped its senders has none later.
* `delivered_eq_sent` — while the transport holds its receiver every send succeeds.
-/

namespace Msrs

open Interleave Fifo

/-- What the DAG and the transport share. -/
structure Bridge (T U : Type) where
  /-- Transport → DAG. -/
  inbound : Chan T
  /-- DAG → transport. -/
  outbound : Chan U
  clock : Nat
  /-- What `Transport::run` returned, once it has. -/
  join : Option (Except String Unit)
  /-- The DAG never blocks on egress. -/
  unbounded : outbound.cap = none

namespace TransportDriver

variable {T U : Type}

/-- Create the channels and start the transport. -/
def spawnWith (inbound : Chan T) (clock : Nat) : Bridge T U :=
  { inbound := inbound, outbound := Chan.fresh none, clock := clock, join := none,
    unbounded := rfl }

/-- Both channels unbounded. -/
def spawn (clock : Nat) : Bridge T U := spawnWith (Chan.fresh none) clock

/-- An inbound channel that holds at most `inboundCapacity` messages. -/
def spawnBounded (inboundCapacity : { c : Nat // 0 < c }) (clock : Nat) : Bridge T U :=
  spawnWith (Chan.fresh (some inboundCapacity)) clock

end TransportDriver

/-- What the other side does. -/
inductive Act (T U : Type) where
  /-- `tx_in.send(m)`: refused while the channel is full, which to the sender is waiting. -/
  | send (m : T)
  /-- `tx_in.try_send(m)` -/
  | trySend (m : T)
  /-- `rx_out.recv()` -/
  | recv
  /-- The last `tx_in` is dropped. -/
  | dropTx
  /-- `rx_out` is dropped. -/
  | dropRx
  /-- `Transport::run` returns and drops both of its ends. -/
  | exit (r : Except String Unit)
  /-- The clock shows `t`. -/
  | clock (t : Nat)

namespace Bridge

variable {T U : Type}

/-- An operation of a task. -/
def handle (w : Bridge T U) : (o : Op T U) → o.Res × Bridge T U
  | .tryRecv => (w.inbound.tryRecv.1, { w with inbound := w.inbound.tryRecv.2 })
  | .len => (w.inbound.queue.length, w)
  | .now => (w.clock, w)
  | .send v => ((w.outbound.trySend v).1, { w with
      outbound := (w.outbound.trySend v).2
      unbounded := by rw [Chan.cap_trySend]; exact w.unbounded })

/-- Offer a message to the inbound channel, if the transport still holds a sender. -/
def offer (w : Bridge T U) (m : T) : Bool × Bridge T U :=
  if w.inbound.tx then
    ((w.inbound.trySend m).1.isOk, { w with inbound := (w.inbound.trySend m).2 })
  else (false, w)

/-- An action of the other side, and whether it took effect. -/
def act (w : Bridge T U) : Act T U → Bool × Bridge T U
  | .send m => w.offer m
  | .trySend m => w.offer m
  | .recv => (w.outbound.tryRecv.1.isOk, { w with
      outbound := w.outbound.tryRecv.2
      unbounded := by rw [Chan.cap_tryRecv]; exact w.unbounded })
  | .dropTx => (true, { w with inbound := w.inbound.dropTx })
  | .dropRx => (true, { w with outbound := w.outbound.dropRx, unbounded := w.unbounded })
  | .exit r =>
    match w.join with
    | none => (true, { w with
        inbound := w.inbound.dropTx
        outbound := w.outbound.dropRx
        unbounded := w.unbounded
        join := some r })
    | some _ => (false, w)
  | .clock t => (true, { w with clock := t })

end Bridge

/-- The shared state as the interleaving library wants it. -/
def bridge (T U : Type) : Shared (Op T U) Op.Res (Act T U) Bool (Bridge T U) :=
  { handle := Bridge.handle, act := Bridge.act }

/-- One thing that happened at the bridge. -/
abbrev Event (T U : Type) : Type := Label (Op T U) Op.Res (Act T U) Bool

/-- One operation a task performed, with its result. -/
abbrev IoCall (T U : Type) : Type := Call (Op T U) Op.Res

variable {T U : Type}

/-- A message the inbound channel accepted. -/
def Event.accepted? : Event T U → Option T
  | .env (.send m) true => some m
  | .env (.trySend m) true => some m
  | _ => none

namespace IoCall

/-- The result of a receive attempt. -/
def attempt? : IoCall T U → Option (Except TryRecvError T)
  | ⟨.tryRecv, r⟩ => some r
  | _ => none

/-- A message received. -/
def received? (c : IoCall T U) : Option T := c.attempt?.bind Except.toOption

/-- A value a task tried to send. -/
def sent? : IoCall T U → Option U
  | ⟨.send v, _⟩ => some v
  | _ => none

/-- A value the outbound channel accepted. -/
def delivered? : IoCall T U → Option U
  | ⟨.send v, .ok _⟩ => some v
  | _ => none

/-- A clock reading. -/
def reading? : IoCall T U → Option Nat
  | ⟨.now, t⟩ => some t
  | _ => none

end IoCall

/-- The messages the inbound channel accepted. -/
def accepted (ls : List (Event T U)) : List T := ls.filterMap Event.accepted?

/-- The messages the DAG received. -/
def received (cs : List (IoCall T U)) : List T := cs.filterMap IoCall.received?

/-- The values the DAG tried to send. -/
def sent (cs : List (IoCall T U)) : List U := cs.filterMap IoCall.sent?

/-- The values the outbound channel accepted. -/
def delivered (cs : List (IoCall T U)) : List U := cs.filterMap IoCall.delivered?

/-- No send was refused. -/
def NoneRefused (cs : List (IoCall T U)) : Prop :=
  ∀ v e, (⟨.send v, .error e⟩ : IoCall T U) ∉ cs

/-- The clock readings of the tasks. -/
def readings (cs : List (IoCall T U)) : List Nat := cs.filterMap IoCall.reading?

@[simp] theorem accepted_nil : accepted ([] : List (Event T U)) = [] := rfl
@[simp] theorem received_nil : received ([] : List (IoCall T U)) = [] := rfl
@[simp] theorem sent_nil : sent ([] : List (IoCall T U)) = [] := rfl
@[simp] theorem delivered_nil : delivered ([] : List (IoCall T U)) = [] := rfl
@[simp] theorem readings_nil : readings ([] : List (IoCall T U)) = [] := rfl

@[simp] theorem accepted_append (ls ms : List (Event T U)) :
    accepted (ls ++ ms) = accepted ls ++ accepted ms := List.filterMap_append

@[simp] theorem received_append (cs ds : List (IoCall T U)) :
    received (cs ++ ds) = received cs ++ received ds := List.filterMap_append

@[simp] theorem sent_append (cs ds : List (IoCall T U)) :
    sent (cs ++ ds) = sent cs ++ sent ds := List.filterMap_append

@[simp] theorem delivered_append (cs ds : List (IoCall T U)) :
    delivered (cs ++ ds) = delivered cs ++ delivered ds := List.filterMap_append

@[simp] theorem readings_append (cs ds : List (IoCall T U)) :
    readings (cs ++ ds) = readings cs ++ readings ds := List.filterMap_append

theorem received_eq_nil {cs : List (IoCall T U)} (h : ∀ c ∈ cs, ¬ c.1.IsRecv) :
    received cs = [] := by
  apply List.filterMap_eq_nil_iff.mpr
  intro c hc
  obtain ⟨o, r⟩ := c
  cases o with
  | tryRecv => exact absurd trivial (h _ hc)
  | send v | len | now => rfl

theorem sent_eq_nil {cs : List (IoCall T U)} (h : ∀ c ∈ cs, ¬ c.1.IsSend) : sent cs = [] := by
  apply List.filterMap_eq_nil_iff.mpr
  intro c hc
  obtain ⟨o, r⟩ := c
  cases o with
  | send v => exact absurd trivial (h _ hc)
  | tryRecv | len | now => rfl

theorem idle_of_clock {α : Type} {p q : Io T U α} {cs : List (IoCall T U)}
    (hp : p.Within (· = .now)) (h : p.Follows cs q) : received cs = [] ∧ sent cs = [] := by
  have hcalls := hp.follows h
  constructor
  · apply received_eq_nil
    intro c hc
    rw [hcalls c hc]
    exact id
  · apply sent_eq_nil
    intro c hc
    rw [hcalls c hc]
    exact id

theorem received_of_sends {α : Type} {p q : Io T U α} {cs : List (IoCall T U)}
    (hp : p.Within Op.IsSend) (h : p.Follows cs q) : received cs = [] := by
  apply received_eq_nil
  intro c hc
  exact Op.IsSend.not_isRecv (hp.follows h c hc)

theorem delivered_sublist (cs : List (IoCall T U)) : (delivered cs).Sublist (sent cs) := by
  induction cs with
  | nil => exact List.Sublist.slnil
  | cons c cs ih =>
    obtain ⟨o, r⟩ := c
    cases o with
    | send v =>
      cases r with
      | ok u => exact ih.cons_cons v
      | error e => exact ih.cons v
    | tryRecv | len | now => exact ih

/-- No send was refused exactly when everything sent was accepted. -/
theorem noneRefused_iff {cs : List (IoCall T U)} : NoneRefused cs ↔ delivered cs = sent cs := by
  induction cs with
  | nil => exact iff_of_true (fun v e => List.not_mem_nil) rfl
  | cons c cs ih =>
    have hcons : NoneRefused (c :: cs) ↔
        (∀ v e, (⟨.send v, .error e⟩ : IoCall T U) ≠ c) ∧ NoneRefused cs := by
      simp only [NoneRefused, List.mem_cons, not_or, forall_and, ne_eq]
    rw [hcons, ih]
    obtain ⟨o, r⟩ := c
    cases o with
    | send v =>
      cases r with
      | ok u =>
        refine ⟨fun h => congrArg (v :: ·) h.2, fun h => ⟨?_, (List.cons.inj h).2⟩⟩
        intro v' e heq
        cases heq
      -- Without the refused value the accepted ones are fewer.
      | error e =>
        refine iff_of_false (fun h => h.1 v e rfl) fun h => ?_
        have hlength : (delivered cs).length = (sent cs).length + 1 := congrArg List.length h
        have hle := (delivered_sublist cs).length_le
        omega
    | tryRecv | len | now =>
      refine ⟨fun h => h.2, fun h => ⟨?_, h⟩⟩
      intro v e heq
      cases heq

theorem delivered_eq_sent_append {cs ds : List (IoCall T U)} :
    delivered (cs ++ ds) = sent (cs ++ ds) ↔ delivered cs = sent cs ∧ delivered ds = sent ds := by
  rw [delivered_append, sent_append]
  refine ⟨fun h => ?_, fun h => ?_⟩
  · have hlen := congrArg List.length h
    simp only [List.length_append] at hlen
    have hcs := (delivered_sublist cs).length_le
    have hds := (delivered_sublist ds).length_le
    exact List.append_inj h (by omega)
  · rw [h.1, h.2]

/-! ## Laws of the bridge -/

theorem Bridge.queue_offer (w : Bridge T U) (m : T) :
    (w.offer m).2.inbound.queue = w.inbound.queue ++ if (w.offer m).1 then [m] else [] := by
  unfold Bridge.offer
  by_cases htx : w.inbound.tx = true
  · rw [if_pos htx]
    exact Chan.queue_trySend w.inbound m
  · rw [if_neg htx]
    simp

theorem Bridge.queue_handle (w : Bridge T U) (o : Op T U) :
    w.inbound.queue = received [⟨o, (w.handle o).1⟩] ++ (w.handle o).2.inbound.queue := by
  cases o with
  | tryRecv =>
    have hq := Chan.queue_tryRecv w.inbound
    show _ = received [⟨.tryRecv, w.inbound.tryRecv.1⟩] ++ w.inbound.tryRecv.2.queue
    cases hr : w.inbound.tryRecv.1 with
    | ok m => rwa [hr] at hq
    | error e => rwa [hr] at hq
  | len => rfl
  | now => rfl
  | send v => rfl

theorem Bridge.queue_act (w : Bridge T U) (e : Act T U) :
    (w.act e).2.inbound.queue = w.inbound.queue ++ accepted [.env e (w.act e).1] := by
  cases e with
  | send m =>
    have hq := w.queue_offer m
    show (w.offer m).2.inbound.queue = _ ++ accepted [.env (.send m) (w.offer m).1]
    cases hb : (w.offer m).1 <;> rwa [hb] at hq
  | trySend m =>
    have hq := w.queue_offer m
    show (w.offer m).2.inbound.queue = _ ++ accepted [.env (.trySend m) (w.offer m).1]
    cases hb : (w.offer m).1 <;> rwa [hb] at hq
  | exit r =>
    show (w.act (.exit r)).2.inbound.queue = _ ++ []
    cases hj : w.join <;> simp [Bridge.act, hj]
  | recv | dropTx | dropRx | clock t => exact (List.append_nil _).symm

/-- **Nothing is lost, duplicated or reordered on the way in**: what was queued and what was
accepted since is what was received since and what is queued now. -/
theorem queue_law {w w' : Bridge T U} {ls : List (Event T U)} (h : (bridge T U).Legal w ls w') :
    w.inbound.queue ++ accepted ls = received (calls ls) ++ w'.inbound.queue := by
  refine Shared.Legal.track (bridge T U)
    (R := fun ls v => w.inbound.queue ++ accepted ls = received (calls ls) ++ v.inbound.queue)
    ?_ ?_ (by simp) h
  · intro ls v o ih
    rw [accepted_append, calls_append, received_append, List.append_assoc, ← List.append_assoc,
      ih, v.queue_handle o]
    simp [accepted, Event.accepted?, bridge]
  · intro ls v e ih
    rw [accepted_append, ← List.append_assoc, ih, List.append_assoc]
    simp [bridge, v.queue_act e]

theorem queue_of_failed {w w' : Bridge T U} {ls : List (Event T U)} {e : TryRecvError}
    (h : (bridge T U).Legal w (.call ⟨.tryRecv, .error e⟩ :: ls) w') : w.inbound.queue = [] :=
  (Chan.tryRecv_error h.1).1

/-! ## Hanging up -/

theorem Bridge.ends_act (w : Bridge T U) (e : Act T U) :
    ((w.act e).2.inbound.tx = true → w.inbound.tx = true) ∧
      ((w.act e).2.outbound.rx = true → w.outbound.rx = true) := by
  have hoffer (m : T) : (w.offer m).2.inbound.tx = w.inbound.tx ∧
      (w.offer m).2.outbound.rx = w.outbound.rx := by
    unfold Bridge.offer
    by_cases htx : w.inbound.tx = true
    · rw [if_pos htx]
      exact ⟨Chan.tx_trySend _ _, rfl⟩
    · rw [if_neg htx]
      exact ⟨rfl, rfl⟩
  cases e with
  | send m | trySend m =>
    show ((w.offer m).2.inbound.tx = true → _) ∧ ((w.offer m).2.outbound.rx = true → _)
    rw [(hoffer m).1, (hoffer m).2]
    exact ⟨id, id⟩
  | exit r => cases hj : w.join <;> simp [Bridge.act, hj]
  | recv | dropTx | dropRx | clock t => simp [Bridge.act]

theorem Bridge.ends_handle (w : Bridge T U) (o : Op T U) :
    (w.handle o).2.inbound.tx = w.inbound.tx ∧ (w.handle o).2.outbound.rx = w.outbound.rx := by
  cases o <;> simp [Bridge.handle]

theorem Bridge.inbound_handle (w : Bridge T U) (o : Op T U) :
    (w.handle o).2.inbound.cap = w.inbound.cap ∧ (w.handle o).2.inbound.rx = w.inbound.rx := by
  cases o with
  | tryRecv => exact ⟨Chan.cap_tryRecv _, Chan.rx_tryRecv _⟩
  | len | now | send v => exact ⟨rfl, rfl⟩

theorem Bridge.inbound_act (w : Bridge T U) (e : Act T U) :
    (w.act e).2.inbound.cap = w.inbound.cap ∧ (w.act e).2.inbound.rx = w.inbound.rx := by
  cases e with
  | send m | trySend m =>
    show (w.offer m).2.inbound.cap = _ ∧ (w.offer m).2.inbound.rx = _
    unfold Bridge.offer
    by_cases htx : w.inbound.tx = true
    · rw [if_pos htx]
      exact ⟨Chan.cap_trySend _ _, Chan.rx_trySend _ _⟩
    · rw [if_neg htx]
      exact ⟨rfl, rfl⟩
  | exit r =>
    unfold Bridge.act
    cases w.join <;> exact ⟨rfl, rfl⟩
  | recv | dropTx | dropRx | clock t => exact ⟨rfl, rfl⟩

theorem inbound_law {w w' : Bridge T U} {ls : List (Event T U)} (h : (bridge T U).Legal w ls w') :
    w'.inbound.cap = w.inbound.cap ∧ w'.inbound.rx = w.inbound.rx := by
  refine Shared.Legal.track (bridge T U)
    (R := fun _ v => v.inbound.cap = w.inbound.cap ∧ v.inbound.rx = w.inbound.rx) ?_ ?_
    ⟨rfl, rfl⟩ h
  · intro ls v o ih
    exact ⟨(v.inbound_handle o).1.trans ih.1, (v.inbound_handle o).2.trans ih.2⟩
  · intro ls v e ih
    exact ⟨(v.inbound_act e).1.trans ih.1, (v.inbound_act e).2.trans ih.2⟩

theorem tx_law {w w' : Bridge T U} {ls : List (Event T U)} (h : (bridge T U).Legal w ls w')
    (htx : w.inbound.tx = false) : w'.inbound.tx = false := by
  refine Shared.Legal.track (bridge T U) (R := fun _ v => v.inbound.tx = false)
    ?_ ?_ htx h
  · intro ls v o ih
    exact (v.ends_handle o).1.trans ih
  · intro ls v e ih
    by_contra hne
    have hback := (v.ends_act e).1 ((Bool.not_eq_false _).mp hne)
    rw [ih] at hback
    cases hback

/-- A transport that has dropped its receiver accepts nothing, and has none later. -/
theorem rx_law {w w' : Bridge T U} {ls : List (Event T U)} (h : (bridge T U).Legal w ls w')
    (hrx : w.outbound.rx = false) : w'.outbound.rx = false ∧ delivered (calls ls) = [] := by
  refine Shared.Legal.track (bridge T U)
    (R := fun ls v => v.outbound.rx = false ∧ delivered (calls ls) = []) ?_ ?_ ⟨hrx, rfl⟩ h
  · rintro ls v o ⟨hv, ih⟩
    refine ⟨(v.ends_handle o).2.trans hv, ?_⟩
    rw [calls_append, delivered_append, ih, List.nil_append]
    cases o with
    | send u =>
      show delivered [⟨.send u, (v.outbound.trySend u).1⟩] = []
      rw [Chan.trySend_disconnected hv u]
      rfl
    | tryRecv | len | now => rfl
  · rintro ls v e ⟨hv, ih⟩
    refine ⟨?_, by simpa using ih⟩
    by_contra hne
    have hback := (v.ends_act e).2 ((Bool.not_eq_false _).mp hne)
    rw [hv] at hback
    cases hback

/-- **Nothing is refused on the way out** while the transport holds its receiver. -/
theorem delivered_eq_sent {w w' : Bridge T U} {ls : List (Event T U)}
    (h : (bridge T U).Legal w ls w') (hrx : w'.outbound.rx = true) :
    delivered (calls ls) = sent (calls ls) := by
  refine Shared.Legal.track (bridge T U)
    (R := fun ls v => v.outbound.rx = true → delivered (calls ls) = sent (calls ls))
    ?_ ?_ (fun _ => rfl) h hrx
  · intro ls v o ih hrx
    have hrx' : v.outbound.rx = true := (v.ends_handle o).2 ▸ hrx
    rw [calls_append, delivered_append, sent_append, ih hrx']
    congr 1
    cases o with
    | send u =>
      show delivered [⟨.send u, (v.outbound.trySend u).1⟩] = [u]
      rw [Chan.trySend_ok v.unbounded hrx' u]
      rfl
    | tryRecv | len | now => rfl
  · intro ls v e ih hrx
    simpa using ih ((v.ends_act e).2 hrx)

/-- What is accepted are the first values sent: a receiver that is dropped does not come back. -/
theorem delivered_isPrefix_sent {w w' : Bridge T U} {ls : List (Event T U)}
    (h : (bridge T U).Legal w ls w') : delivered (calls ls) <+: sent (calls ls) := by
  refine (Shared.Legal.track (bridge T U)
    (R := fun ls v => (v.outbound.rx = true → delivered (calls ls) = sent (calls ls)) ∧
      delivered (calls ls) <+: sent (calls ls)) ?_ ?_ ⟨fun _ => rfl, List.prefix_rfl⟩ h).2
  · intro ls v o ih
    obtain ⟨hall, hpre⟩ := ih
    have hlegal : (bridge T U).Legal v [.call ⟨o, ((bridge T U).handle v o).1⟩]
        ((bridge T U).handle v o).2 := ⟨rfl, rfl⟩
    rw [calls_append, delivered_append, sent_append]
    cases hrx : v.outbound.rx with
    | true =>
      rw [hall hrx, delivered_eq_sent hlegal ((v.ends_handle o).2.trans hrx)]
      exact ⟨fun _ => rfl, List.prefix_rfl⟩
    | false =>
      rw [(rx_law hlegal hrx).2, List.append_nil]
      refine ⟨fun htrue => ?_, hpre.trans (List.prefix_append _ _)⟩
      exact absurd ((rx_law hlegal hrx).1.symm.trans htrue) (by simp)
  · intro ls v e ih
    refine ⟨fun hrx => ?_, by simpa using ih.2⟩
    simpa using ih.1 ((v.ends_act e).2 hrx)

end Msrs
