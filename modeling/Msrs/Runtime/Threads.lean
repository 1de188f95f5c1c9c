import Msrs.Lib.Threads
import Msrs.Core.Rt
import Msrs.Runtime.Dag

/-!
# Transports on their threads

`transport.rs`, `driver.rs`: the code of a transport runs on a thread of its own, and may start
others. Here the other side of the bridge is such code: programs over what a thread can call on,
on the two channels of the bridge and on a third one through which a transport hands results to
`main`. The threads run beside the iterations of the runtime in any order.

* `exchange` — at every moment, on each of the three channels, what one side has sent is what the
  other side has received and then what is queued.
* `TransportDriver.thread` — the closure of `spawn_with`.
-/

namespace Msrs

open Interleave Fifo

/-- What a thread calls on. `T` and `U` are the messages of the bridge, `V` those to `main`. -/
inductive ThreadOp (ι T U V : Type) where
  /-- A call of `RtConfig::apply`. -/
  | rt (o : RtOp)
  | sleep (ms : Nat)
  /-- `tx_in.send(m)` -/
  | send (m : T)
  /-- `tx_in.try_send(m)` -/
  | trySend (m : T)
  /-- `rx_out.recv()`, or `rx_out.recv_timeout` with its milliseconds -/
  | recv (timeoutMs : Option Nat)
  /-- `results.send(v)` -/
  | forward (v : V)
  /-- `res_rx.try_recv()` -/
  | take
  /-- `res_rx.recv_timeout` -/
  | takeTimeout (timeoutMs : Nat)
  /-- `std::thread::spawn` of thread `j` -/
  | spawn (j : ι)
  /-- `join` of thread `j` -/
  | join (j : ι)

/-- What a call answers; thread `j` ends with an `R j`. -/
@[reducible] def ThreadOp.Res {ι T U V : Type} (R : ι → Type) : ThreadOp ι T U V → Type
  | .rt o => o.Res
  | .sleep _ => Unit
  | .send _ => Except String Unit
  | .trySend _ => Except TrySendError Unit
  | .recv _ => Except RecvTimeoutError U
  | .forward _ => Except String Unit
  | .take => Except TryRecvError V
  | .takeTimeout _ => Except RecvTimeoutError V
  | .spawn _ => Unit
  | .join j => R j

/-- Code of a thread. -/
abbrev Code (ι : Type) (R : ι → Type) (T U V : Type) : Type → Type :=
  Prog (ThreadOp ι T U V) (ThreadOp.Res R)

/-- A call of a thread with its answer. -/
abbrev ThreadCall (ι : Type) (R : ι → Type) (T U V : Type) : Type :=
  Call (ThreadOp ι T U V) (ThreadOp.Res R)

/-- What the threads of a process share apart from the bridge. -/
structure Process (ι V : Type) where
  /-- Transport → `main`. -/
  results : Chan V
  /-- The threads that run. -/
  started : ι → Bool
  unbounded : results.cap = none

/-- What the scheduler and the platform decide when a thread is let move. -/
structure Decision where
  /-- A wait with a timeout has been long enough. -/
  giveUp : Bool
  /-- What a call of `RtConfig::apply` answers. -/
  platform : (o : RtOp) → o.Res

/-- Nobody waits for long enough to give up, and the platform does what it is asked to. -/
def Decision.calm : Decision where
  giveUp := false
  platform
    | .getCoreIds => some []
    | .setForCurrent _ => true
    | .priorityValue _ => .ok ()
    | .setThreadPriority _ => .ok ()

/-- The channel ends of the bridge a thread drops when it ends. -/
inductive Drops where
  | nothing
  | txIn
  | rxOut
  /-- Both of them, as `Transport::run` returns `r`. -/
  | both (r : Except String Unit)

/-- The drop as the bridge sees it. -/
def Drops.act {T U : Type} : Drops → Option (Act T U)
  | .nothing => none
  | .txIn => some .dropTx
  | .rxOut => some .dropRx
  | .both r => some (.exit r)

variable {ι : Type} {S R : ι → Type} {T U V σ C : Type} [DecidableEq ι]

/-! ## What a call does -/

namespace ThreadOp

/-- What a call of a running thread comes to. -/
def answer (w : Bridge T U) (x : Process ι V) (ended : ∀ j, Option (R j)) (d : Decision) :
    (o : ThreadOp ι T U V) → Option (o.Res R × Process ι V × Option (Act T U))
  | .rt o => some (d.platform o, x, none)
  | .sleep _ => some ((), x, none)
  | .send m =>
    if w.inbound.tx = true ∧ w.inbound.rx = true then
      if w.inbound.Full then none else some (.ok (), x, some (.send m))
    else some (.error sendErrorText, x, none)
  | .trySend m =>
    if w.inbound.tx = true ∧ w.inbound.rx = true then
      if w.inbound.Full then some (.error .full, x, none)
      else some (.ok (), x, some (.trySend m))
    else some (.error .disconnected, x, none)
  | .recv timeoutMs =>
    (w.outbound.await (timeoutMs.isSome && d.giveUp)).map fun
      | .ok v => (.ok v, x, some .recv)
      | .error e => (.error e, x, none)
  | .forward v =>
    some (match (x.results.trySend v).1 with
      | .ok () => .ok ()
      | .error _ => .error sendErrorText,
      { x with
        results := (x.results.trySend v).2
        unbounded := by rw [Chan.cap_trySend]; exact x.unbounded }, none)
  | .take =>
    some (x.results.tryRecv.1, { x with
      results := x.results.tryRecv.2
      unbounded := by rw [Chan.cap_tryRecv]; exact x.unbounded }, none)
  | .takeTimeout _ =>
    (x.results.await d.giveUp).map fun r => (r, { x with
      results := x.results.tryRecv.2
      unbounded := by rw [Chan.cap_tryRecv]; exact x.unbounded }, none)
  | .spawn j => some ((), { x with started := Function.update x.started j true }, none)
  | .join j => (ended j).map fun r => (r, x, none)

end ThreadOp

/-- The threads of a process beside the runtime's loop. -/
structure Program (ι : Type) (S R : ι → Type) (T U V : Type) where
  routine : ∀ i, Routine (ThreadOp ι T U V) (ThreadOp.Res R) (S i) (R i)
  /-- The ends of the bridge a thread holds when it ends. -/
  drops : (i : ι) → R i → Drops
  /-- The thread holds the sender of the results. -/
  holdsResults : ι → Bool
  /-- The thread the driver spawns. -/
  driver : ι
  /-- `main`, once it has dropped the application. -/
  main : ι

namespace Program

/-- A running thread performs its calls; the others wait to be started. -/
def threads (P : Program ι S R T U V) : Threads ι (ThreadOp ι T U V) (ThreadOp.Res R) S R
    Decision Nat (Process ι V) (Act T U) (Bridge T U) where
  routine := P.routine
  perform i w x ended d o := if x.started i then o.answer w x ended d else none
  exit i r x :=
    (if P.holdsResults i then { x with results := x.results.dropTx, unbounded := x.unbounded }
      else x, (P.drops i r).act)
  ambient t := .clock t

/-- When `run_live` begins: only the driver runs. -/
def process (P : Program ι S R T U V) : Process ι V :=
  { results := Chan.fresh none, started := fun i => decide (i = P.driver),
    unbounded := Chan.cap_fresh none }

end Program

/-- A moment of the whole process: the runtime and the threads. -/
abbrev ProcessMoment (ι : Type) (S R : ι → Type) (T U V σ C : Type) : Type :=
  System (Op T U) Op.Res (Act T U) Bool (Bridge T U) (Runtime σ C) ι (ThreadOp ι T U V)
    (ThreadOp.Res R) S R (Process ι V)

namespace Program

/-- Where the turns lead while `main` iterates the runtime. -/
def run (P : Program ι S R T U V) (D : Dag T U σ C) (pick : Nat → Nat) (rt : Runtime σ C)
    (w : Bridge T U) (turns : List (Threads.Turn ι Decision Nat)) : ProcessMoment ι S R T U V σ C :=
  P.threads.run (bridge T U) (D.stage pick)
    { loop := Shared.start (D.stage pick) rt w, pool := P.threads.start P.process } turns

/-- To the runtime the threads are an environment like any other. -/
theorem run_loop (P : Program ι S R T U V) (D : Dag T U σ C) (pick : Nat → Nat)
    (rt : Runtime σ C) (w : Bridge T U) (turns : List (Threads.Turn ι Decision Nat)) :
    ∃ sched, (P.run D pick rt w turns).loop = D.run pick rt w sched := by
  obtain ⟨sched, hloop, -⟩ := P.threads.run_loop (bridge T U) (D.stage pick)
    { loop := Shared.start (D.stage pick) rt w, pool := P.threads.start P.process } turns
  exact ⟨sched, hloop⟩

end Program

/-! ## What the calls have moved -/

namespace ThreadCall

/-- A message the inbound channel took from a thread. -/
def offered? : ThreadCall ι R T U V → Option T
  | ⟨.send m, .ok _⟩ => some m
  | ⟨.trySend m, .ok _⟩ => some m
  | _ => none

/-- A value a thread received from the DAG. -/
def taken? : ThreadCall ι R T U V → Option U
  | ⟨.recv _, .ok v⟩ => some v
  | _ => none

/-- A value a thread handed to `main`. -/
def forwarded? : ThreadCall ι R T U V → Option V
  | ⟨.forward v, .ok _⟩ => some v
  | _ => none

/-- A value `main` received. -/
def collected? : ThreadCall ι R T U V → Option V
  | ⟨.take, .ok v⟩ => some v
  | ⟨.takeTimeout _, .ok v⟩ => some v
  | _ => none

end ThreadCall

/-- The messages the threads got into the inbound channel. -/
def offered (cs : List (ThreadCall ι R T U V)) : List T := cs.filterMap ThreadCall.offered?

/-- The values the threads received from the DAG. -/
def taken (cs : List (ThreadCall ι R T U V)) : List U := cs.filterMap ThreadCall.taken?

/-- The values handed to `main`. -/
def forwarded (cs : List (ThreadCall ι R T U V)) : List V := cs.filterMap ThreadCall.forwarded?

/-- The values `main` received. -/
def collected (cs : List (ThreadCall ι R T U V)) : List V := cs.filterMap ThreadCall.collected?

section Lists

variable (cs ds : List (ThreadCall ι R T U V))

omit [DecidableEq ι]

@[simp] theorem offered_append : offered (cs ++ ds) = offered cs ++ offered ds :=
  List.filterMap_append

@[simp] theorem taken_append : taken (cs ++ ds) = taken cs ++ taken ds := List.filterMap_append

@[simp] theorem forwarded_append : forwarded (cs ++ ds) = forwarded cs ++ forwarded ds :=
  List.filterMap_append

@[simp] theorem collected_append : collected (cs ++ ds) = collected cs ++ collected ds :=
  List.filterMap_append

end Lists

/-! ## The laws of the three channels -/

/-- The calls of all threads, in order. -/
def threadCalls (p : Pool ι (ThreadOp ι T U V) (ThreadOp.Res R) S R (Process ι V)) :
    List (ThreadCall ι R T U V) := p.trace.map Prod.snd

@[simp] theorem threadCalls_record
    (p : Pool ι (ThreadOp ι T U V) (ThreadOp.Res R) S R (Process ι V)) (i : ι)
    (c : ThreadCall ι R T U V) (x : Process ι V) (q : Code ι R T U V (S i ⊕ R i)) :
    threadCalls (p.record i c x q) = threadCalls p ++ [c] := by
  simp [threadCalls, Pool.record]

theorem mem_threadCalls {p : Pool ι (ThreadOp ι T U V) (ThreadOp.Res R) S R (Process ι V)} {i : ι}
    {c : ThreadCall ι R T U V} (h : c ∈ callsOf i p.trace) : c ∈ threadCalls p :=
  List.mem_map.mpr ⟨(i, c), mem_callsOf.mp h, rfl⟩

omit [DecidableEq ι] in
theorem Bridge.outbound_handle (w : Bridge T U) (o : Op T U) :
    (w.handle o).2.outbound.queue = w.outbound.queue ++ delivered [⟨o, (w.handle o).1⟩] := by
  cases o with
  | send v =>
    have hq := Chan.queue_trySend w.outbound v
    show (w.outbound.trySend v).2.queue = _ ++ delivered [⟨.send v, (w.outbound.trySend v).1⟩]
    cases hr : (w.outbound.trySend v).1 <;> rwa [hr] at hq
  | tryRecv | len | now => exact (List.append_nil _).symm

omit [DecidableEq ι] in
theorem Bridge.accepts {w : Bridge T U} (hends : w.inbound.tx = true ∧ w.inbound.rx = true)
    (hroom : ¬ w.inbound.Full) (m : T) :
    (w.offer m).1 = true ∧ (w.offer m).2.outbound = w.outbound := by
  simp [Bridge.offer, hends.1, Chan.trySend, hends.2, hroom, Except.isOk, Except.toBool]

/-- **One call**, on each of the three channels. -/
theorem ThreadOp.answer_law {w : Bridge T U} {x x' : Process ι V} {ended : ∀ j, Option (R j)}
    {d : Decision} {o : ThreadOp ι T U V} {r : o.Res R} {e : Option (Act T U)}
    (h : o.answer w x ended d = some (r, x', e)) :
    w.outbound.queue = taken [(⟨o, r⟩ : ThreadCall ι R T U V)] ++
        (Threads.acted (bridge T U) w e).outbound.queue ∧
      offered [(⟨o, r⟩ : ThreadCall ι R T U V)] =
        accepted (Threads.actLabels (bridge T U) w e) ∧
      x.results.queue ++ forwarded [(⟨o, r⟩ : ThreadCall ι R T U V)] =
        collected [(⟨o, r⟩ : ThreadCall ι R T U V)] ++ x'.results.queue := by
  cases o with
  | rt o | sleep ms | spawn j =>
    cases h
    exact ⟨rfl, rfl, List.append_nil _⟩
  | join j =>
    obtain ⟨r', -, hr'⟩ := Option.map_eq_some_iff.mp h
    cases hr'
    exact ⟨rfl, rfl, List.append_nil _⟩
  | send m =>
    by_cases hends : w.inbound.tx = true ∧ w.inbound.rx = true
    · rw [answer, if_pos hends] at h
      by_cases hfull : w.inbound.Full
      · rw [if_pos hfull] at h
        cases h
      · rw [if_neg hfull] at h
        cases h
        obtain ⟨hack, hout⟩ := Bridge.accepts hends hfull m
        refine ⟨(congrArg Chan.queue hout).symm, ?_, List.append_nil _⟩
        show [m] = accepted [.env (.send m) (w.offer m).1]
        rw [hack]
        rfl
    · rw [answer, if_neg hends] at h
      cases h
      exact ⟨rfl, rfl, List.append_nil _⟩
  | trySend m =>
    by_cases hends : w.inbound.tx = true ∧ w.inbound.rx = true
    · rw [answer, if_pos hends] at h
      by_cases hfull : w.inbound.Full
      · rw [if_pos hfull] at h
        cases h
        exact ⟨rfl, rfl, List.append_nil _⟩
      · rw [if_neg hfull] at h
        cases h
        obtain ⟨hack, hout⟩ := Bridge.accepts hends hfull m
        refine ⟨(congrArg Chan.queue hout).symm, ?_, List.append_nil _⟩
        show [m] = accepted [.env (.trySend m) (w.offer m).1]
        rw [hack]
        rfl
    · rw [answer, if_neg hends] at h
      cases h
      exact ⟨rfl, rfl, List.append_nil _⟩
  | recv timeoutMs =>
    obtain ⟨r', hawait, hr'⟩ := Option.map_eq_some_iff.mp h
    cases r' with
    | ok v =>
      cases hr'
      refine ⟨?_, rfl, List.append_nil _⟩
      have hq := Chan.queue_tryRecv w.outbound
      rw [Chan.tryRecv_of_await hawait] at hq
      exact hq
    | error e' =>
      cases hr'
      exact ⟨rfl, rfl, List.append_nil _⟩
  | forward v =>
    cases h
    refine ⟨rfl, rfl, ?_⟩
    have hq := Chan.queue_trySend x.results v
    cases hr : (x.results.trySend v).1 with
    | ok a =>
      rw [hr] at hq
      exact hq.symm
    | error e' =>
      rw [hr] at hq
      exact hq.symm
  | take =>
    cases h
    refine ⟨rfl, rfl, ?_⟩
    have hq := Chan.queue_tryRecv x.results
    cases hr : x.results.tryRecv.1 with
    | ok v =>
      rw [hr] at hq
      exact (List.append_nil _).trans hq
    | error e' =>
      rw [hr] at hq
      exact (List.append_nil _).trans hq
  | takeTimeout ms =>
    obtain ⟨r', hawait, hr'⟩ := Option.map_eq_some_iff.mp h
    cases hr'
    refine ⟨rfl, rfl, ?_⟩
    have hq := Chan.queue_tryRecv x.results
    cases r with
    | ok v =>
      rw [Chan.tryRecv_of_await hawait] at hq
      exact (List.append_nil _).trans hq
    | error e' =>
      have hnil := Chan.queue_of_await hawait
      refine (List.append_nil _).trans ?_
      show x.results.queue = x.results.tryRecv.2.queue
      rw [Chan.tryRecv_of_nil hnil]

theorem Program.exit_shared (P : Program ι S R T U V) (i : ι) (r : R i) (x : Process ι V) :
    (P.threads.exit i r x).1.results.queue = x.results.queue ∧
      (P.threads.exit i r x).1.results.rx = x.results.rx ∧
      (P.threads.exit i r x).1.started = x.started := by
  simp only [Program.threads]
  by_cases hholds : P.holdsResults i = true
  · rw [if_pos hholds]
    exact ⟨rfl, rfl, rfl⟩
  · rw [if_neg hholds]
    exact ⟨rfl, rfl, rfl⟩

/-- The three channels, given the bridge, what happened there and the threads. -/
structure Exchanged (w : Bridge T U) (ls : List (Event T U))
    (p : Pool ι (ThreadOp ι T U V) (ThreadOp.Res R) S R (Process ι V)) : Prop where
  outbound : delivered (calls ls) = taken (threadCalls p) ++ w.outbound.queue
  inbound : offered (threadCalls p) = accepted ls
  results : forwarded (threadCalls p) = collected (threadCalls p) ++ p.shared.results.queue

namespace Exchanged

variable {w : Bridge T U} {ls : List (Event T U)}
  {p p' : Pool ι (ThreadOp ι T U V) (ThreadOp.Res R) S R (Process ι V)}

omit [DecidableEq ι] in
theorem call (h : Exchanged w ls p) (o : Op T U) :
    Exchanged (w.handle o).2 (ls ++ [.call ⟨o, (w.handle o).1⟩]) p := by
  refine ⟨?_, ?_, h.results⟩
  · rw [w.outbound_handle o, ← List.append_assoc, ← h.outbound, calls_append, delivered_append]
    rfl
  · rw [accepted_append, ← h.inbound]
    exact (List.append_nil _).symm

omit [DecidableEq ι] in
theorem ambient (h : Exchanged w ls p) (t : Nat) :
    Exchanged (w.act (.clock t)).2 (ls ++ [.env (.clock t) (w.act (.clock t)).1]) p := by
  refine ⟨?_, ?_, h.results⟩
  · rw [calls_append, delivered_append]
    exact (List.append_nil _).trans h.outbound
  · rw [accepted_append, ← h.inbound]
    exact (List.append_nil _).symm

omit [DecidableEq ι] in
theorem act_drops (w : Bridge T U) (dr : Drops) :
    (Threads.acted (bridge T U) w dr.act).outbound.queue = w.outbound.queue ∧
      accepted (Threads.actLabels (bridge T U) w dr.act) = [] := by
  cases dr with
  | nothing | txIn | rxOut => exact ⟨rfl, rfl⟩
  | both r =>
    refine ⟨?_, rfl⟩
    show (w.act (.exit r)).2.outbound.queue = _
    cases hj : w.join <;> simp [Bridge.act, hj]

theorem moves {P : Program ι S R T U V} {i : ι} {e : Option (Act T U)} (h : Exchanged w ls p)
    (hmoves : P.threads.Moves w p i p' e) :
    Exchanged (Threads.acted (bridge T U) w e) (ls ++ Threads.actLabels (bridge T U) w e) p' := by
  have hcalls (e : Option (Act T U)) : calls (ls ++ Threads.actLabels (bridge T U) w e) =
      calls ls := by
    cases e <;> simp [Threads.actLabels]
  cases hmoves with
  | stay | round s _ _ =>
    rw [Threads.actLabels, List.append_nil]
    exact ⟨h.outbound, h.inbound, h.results⟩
  | exit r _ _ =>
    obtain ⟨hqueue, haccepted⟩ := act_drops w (P.drops i r)
    refine ⟨?_, ?_, ?_⟩
    · rw [hcalls]
      exact h.outbound.trans (congrArg _ hqueue.symm)
    · rw [accepted_append]
      exact h.inbound.trans ((List.append_nil _).symm.trans (congrArg _ haccepted.symm))
    · exact h.results.trans (congrArg _ (P.exit_shared i r p.shared).1.symm)
  | call d k r x e _ _ hperform =>
    have hanswer : ThreadOp.answer w p.shared p.ended d _ = some (r, x, e) := by
      by_cases hstarted : p.shared.started i = true
      · exact (if_pos hstarted).symm.trans hperform
      · exact absurd ((if_neg hstarted).symm.trans hperform) (by simp)
    obtain ⟨hout, hin, hres⟩ := ThreadOp.answer_law hanswer
    refine ⟨?_, ?_, ?_⟩
    · rw [hcalls, threadCalls_record, taken_append, List.append_assoc, ← hout]
      exact h.outbound
    · rw [threadCalls_record, offered_append, accepted_append, ← h.inbound, hin]
    · rw [threadCalls_record, forwarded_append, collected_append, List.append_assoc, h.results,
        List.append_assoc, hres]
      rfl

end Exchanged

theorem Program.exchanged_run (P : Program ι S R T U V) {M : Type}
    {body : Nat → M → Io T U M}
    {m : System (Op T U) Op.Res (Act T U) Bool (Bridge T U) M ι (ThreadOp ι T U V)
      (ThreadOp.Res R) S R (Process ι V)}
    (h : Exchanged m.loop.world (m.loop.hist.map Prod.snd) m.pool)
    (turns : List (Threads.Turn ι Decision Nat)) :
    Exchanged (P.threads.run (bridge T U) body m turns).loop.world
      ((P.threads.run (bridge T U) body m turns).loop.hist.map Prod.snd)
      (P.threads.run (bridge T U) body m turns).pool :=
  P.threads.run_track (bridge T U) body (J := Exchanged) h (fun _ _ _ _ o h => h.call o)
    (fun _ _ _ t h => h.ambient t) (fun _ _ _ _ _ _ h hmoves => h.moves hmoves)

/-- **Nothing is lost, duplicated or reordered between the code of a transport and the DAG.** For
any runtime, any threads and any order of their moves, on fresh channels, at every moment: the
messages the threads got into the inbound channel are those the ingress tasks received and then
those queued; the values the egress tasks delivered are those the threads received and then those
queued; and the results handed to `main` are those it collected and then those queued. -/
theorem Program.exchange (P : Program ι S R T U V) (D : Dag T U σ C) (pick : Nat → Nat)
    (rt : Runtime σ C) (capacity : Capacity) (clock : Nat)
    (turns : List (Threads.Turn ι Decision Nat)) :
    let m := P.run D pick rt (TransportDriver.spawnWith (Chan.fresh capacity) clock) turns
    offered (threadCalls m.pool) = received m.loop.calls ++ m.loop.world.inbound.queue ∧
      delivered m.loop.calls = taken (threadCalls m.pool) ++ m.loop.world.outbound.queue ∧
      forwarded (threadCalls m.pool) =
        collected (threadCalls m.pool) ++ m.pool.shared.results.queue := by
  intro m
  have h : Exchanged m.loop.world (Moment.events m.loop) m.pool :=
    P.exchanged_run ⟨rfl, rfl, rfl⟩ turns
  obtain ⟨sched, hloop⟩ := P.run_loop D pick rt
    (TransportDriver.spawnWith (Chan.fresh capacity) clock) turns
  refine ⟨?_, h.outbound, h.results⟩
  rw [h.inbound, show m.loop = _ from hloop]
  exact Dag.accepted_run D pick rt rfl sched

end Msrs
