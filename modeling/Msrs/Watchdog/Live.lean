import Msrs.Watchdog.Pulse

/-!
# The live run of the watchdog service

`run_live`: `main` iterates the runtime beside the transport, drops the application, waits for the
transport and collects the alarms. What `main` has found is `Emptied`, and what holds after it has
dropped the application is `Ending`.

* `live_delivered` — what `main` returns is what the egress task delivered, whatever the order of
  the moves.
* `live_returns` — under any scheduler that lets the three threads move again and again, `main`
  does return.
-/

namespace Msrs

open Interleave Fifo

/-- The threads of the service at a moment. -/
abbrev PulsePool : Type :=
  Pool Party (ThreadOp Party Feed Alarm Alarm) (ThreadOp.Res Party.Result) Party.Kept Party.Result
    (Process Party Alarm)

/-- A moment of the whole service. -/
abbrev PulseMoment (σ C : Type) : Type :=
  ProcessMoment Party Party.Kept Party.Result Feed Alarm Alarm σ C

namespace Pulse

variable {target : TargetOs} {rt : RtConfig} {p p' : PulsePool} {w : Bridge Feed Alarm}
  {ls : List (Event Feed Alarm)} {i : Party} {e : Option (Act Feed Alarm)}

/-! ## Who has called what -/

theorem calls_of_mem (h : (program target rt).threads.Follows p) {c : PulseCall}
    (hc : (i, c) ∈ p.trace) : Calls i c.1 :=
  (h.allowed within_first within_again).1 i c hc

theorem calls_of_cur (h : (program target rt).threads.Follows p)
    {o : ThreadOp Party Feed Alarm Alarm}
    {k : o.Res Party.Result → PulseCode (i.Kept ⊕ i.Result)} (hcur : p.cur i = .call o k) :
    Calls i o :=
  (h.allowed within_first within_again).2 i o k hcur

theorem taken_driver (h : (program target rt).threads.Follows p) :
    taken (threadCalls p) = taken (callsOf .driver p.trace) := by
  refine h.filterMap_calls within_first within_again .driver fun i c hi hcalls => ?_
  obtain ⟨o, r⟩ := c
  cases i <;> cases o <;> first | rfl | exact absurd rfl hi | exact hcalls.elim

theorem forwarded_driver (h : (program target rt).threads.Follows p) :
    forwarded (threadCalls p) = forwarded (callsOf .driver p.trace) := by
  refine h.filterMap_calls within_first within_again .driver fun i c hi hcalls => ?_
  obtain ⟨o, r⟩ := c
  cases i <;> cases o <;> first | rfl | exact absurd rfl hi | exact hcalls.elim

theorem collected_main (h : (program target rt).threads.Follows p) :
    collected (threadCalls p) = collected (callsOf .main p.trace) := by
  refine h.filterMap_calls within_first within_again .main fun i c hi hcalls => ?_
  obtain ⟨o, r⟩ := c
  cases i <;> cases o <;> first | rfl | exact absurd rfl hi | exact hcalls.elim

theorem take_main (h : (program target rt).threads.Follows p) {r : Except TryRecvError Alarm}
    (htake : ⟨.take, r⟩ ∈ threadCalls p) : ⟨.take, r⟩ ∈ callsOf .main p.trace := by
  obtain ⟨⟨j, c⟩, hmem, rfl⟩ := List.mem_map.mp htake
  have hcalls := calls_of_mem h hmem
  cases j with
  | main => exact mem_callsOf.mpr hmem
  | driver | feeder => exact hcalls.elim

/-- A driver at its end has forwarded all it received, and was told that the DAG is gone. -/
theorem driver_end (h : (program target rt).Running w ls p) {r : Except String Unit}
    (hcur : p.cur .driver = .ret (.inr r)) :
    r = .ok () ∧ forwarded (threadCalls p) = taken (threadCalls p) ∧
      ⟨.recv none, .error .disconnected⟩ ∈ threadCalls p := by
  have hat := h.follows.at_cur .driver
  rw [hcur] at hat
  obtain ⟨ds, q, hrun, hq, hsub, -, htaken, hforwarded⟩ := TransportDriver.moved_thread hat
  obtain rfl : .ret (.inr r) = q := hq.resolve_right (by simp)
  have hmem {c : PulseCall} (hc : c ∈ ds) : c ∈ threadCalls p := mem_threadCalls (hsub hc)
  obtain ⟨hr, hall, e, he⟩ := driver_inr hrun fun v r' hv =>
    h.attended.calls ⟨.forward v, r'⟩ (hmem hv)
  refine ⟨hr, ?_, ?_⟩
  · rw [forwarded_driver h.follows, taken_driver h.follows, htaken, hforwarded, hall]
  · cases e with
    | disconnected => exact hmem he
    | timeout => exact absurd rfl (h.attended.calls _ (hmem he) rfl)

theorem rx_of_serving (h : (program target rt).Serving w ls p) : w.outbound.rx = true := by
  by_contra hrx
  obtain ⟨i, r, htakes, hended⟩ := h.holds.rx ((Bool.not_eq_true _).mp hrx)
  cases i with
  | driver =>
    obtain ⟨-, -, hrecv⟩ := driver_end h.toRunning (h.follows.ended .driver r hended)
    exact h.told none hrecv
  | feeder | main => cases htakes

/-! ## What `main` has found -/

/-- `main` has found no further result when there is none. -/
def Emptied (p : PulsePool) : Prop :=
  ∀ e, ⟨.take, .error e⟩ ∈ threadCalls p → p.shared.results.queue = []

theorem driver_ended (h : (program target rt).Running w ls p) {r : Except TryRecvError Alarm}
    (htake : ⟨.take, r⟩ ∈ threadCalls p) : ∃ r', p.ended .driver = some r' := by
  obtain ⟨r', hjoin⟩ := main_joined (h.follows.at_cur .main) (take_main h.follows htake)
  exact ⟨r', h.attended.calls _ (mem_threadCalls hjoin)⟩

theorem Emptied.moves (hemptied : Emptied p) (h : (program target rt).Running w ls p)
    (hmoves : (program target rt).threads.Moves w p i p' e) : Emptied p' := by
  cases hmoves with
  | stay | round s _ _ => exact hemptied
  | exit r _ _ =>
    obtain ⟨hresults, -, -⟩ := (program target rt).exit_shared i r p.shared
    exact fun err herr => hresults.trans (hemptied err herr)
  | @call o d k r x e hrunning hcur hperform =>
    obtain ⟨-, hanswer⟩ := Program.answer_of_perform hperform
    obtain ⟨-, -, hresults⟩ := ThreadOp.answer_law hanswer
    have hcalls := calls_of_cur h.follows hcur
    intro err hmem
    rw [threadCalls_record, List.mem_append, List.mem_singleton] at hmem
    rcases hmem with hmem | hlast
    · -- The driver has ended, and nobody else forwards.
      obtain ⟨r', hr'⟩ := driver_ended h hmem
      have hnone : forwarded [(⟨o, r⟩ : PulseCall)] = [] := by
        cases i with
        | driver => exact absurd (hrunning.symm.trans hr') (by simp)
        | feeder | main => cases o <;> first | rfl | exact hcalls.elim
      rw [hemptied err hmem, hnone] at hresults
      exact (List.append_eq_nil_iff.mp hresults.symm).2
    · cases hlast
      exact ThreadOp.answer_take hanswer

/-! ## After `main` has dropped the application -/

/-- The DAG has hung up, and `main` waits for the driver and collects. -/
structure Ending (target : TargetOs) (rt : RtConfig) (w : Bridge Feed Alarm)
    (ls : List (Event Feed Alarm)) (p : PulsePool) : Prop
    extends (program target rt).Closing w ls p where
  emptied : Emptied p

namespace Ending

/-- A driver that has set itself up, or waits for a thread, has started the feeder. -/
theorem feeder_started (h : Ending target rt w ls p)
    (hcur : (∃ a, p.cur .driver = .ret a) ∨ ∃ j k, p.cur .driver = .call (.join j) k) :
    p.shared.started .feeder = true := by
  obtain ⟨ds, q, hrun, hq, hsub, -⟩ := TransportDriver.moved_thread (h.follows.at_cur .driver)
  obtain rfl : p.cur .driver = q := by
    refine hq.resolve_right fun ⟨o, k, hrt⟩ => ?_
    rcases hcur with ⟨a, ha⟩ | ⟨j, k', hj⟩
    · cases ha.symm.trans hrt
    · cases hj.symm.trans hrt
  exact h.attended.calls ⟨.spawn .feeder, ()⟩
    (mem_threadCalls (hsub (driver_spawned hrun hcur)))

theorem join_cur (h : Ending target rt w ls p) {j : Party}
    {k : j.Result → PulseCode (i.Kept ⊕ i.Result)} (hcur : p.cur i = .call (.join j) k) :
    (i = .driver ∧ j = .feeder) ∨ (i = .main ∧ j = .driver) := by
  have hcalls := calls_of_cur h.follows hcur
  cases i with
  | driver => exact Or.inl ⟨rfl, hcalls⟩
  | feeder => exact hcalls.elim
  | main => exact Or.inr ⟨rfl, hcalls⟩

theorem feeder_bound (h : Ending target rt w ls p) : p.rounds .feeder ≤ 0 :=
  feeder_rounds target rt (h.follows.at_cur .feeder)

theorem driver_bound (h : Ending target rt w ls p) :
    p.rounds .driver ≤ (delivered (calls ls)).length + 1 := by
  obtain ⟨ds, q, hrun, -, -, -, htaken, -⟩ :=
    TransportDriver.moved_thread (h.follows.at_cur .driver)
  have hrounds := driver_rounds hrun
  have hout := congrArg List.length h.exchanged.outbound
  rw [List.length_append, taken_driver h.follows, htaken] at hout
  omega

theorem main_bound (h : Ending target rt w ls p) {r : Except String Unit}
    (hdriver : p.ended .driver = some r) :
    p.rounds .main ≤ (delivered (calls ls)).length + 1 := by
  have hrounds := main_rounds (h.follows.at_cur .main)
  obtain ⟨-, hforwarded, -⟩ := driver_end h.toRunning (h.follows.ended .driver r hdriver)
  have hout := congrArg List.length h.exchanged.outbound
  have hresults := congrArg List.length h.exchanged.results
  rw [List.length_append, ← hforwarded] at hout
  rw [List.length_append, collected_main h.follows] at hresults
  omega

theorem unblocked {σ C : Type} {m : PulseMoment σ C}
    (h : Ending target rt m.loop.world (Moment.events m.loop) m.pool)
    (hstarted : m.pool.shared.started i = true)
    (hjoin : ∀ j k, m.pool.cur i = .call (.join j) k → (m.pool.ended j).isSome = true) :
    Threads.Unblocked (program target rt).threads i m := by
  refine h.toClosing.unblocked hstarted hjoin fun ms k hcur => ?_
  have hcalls := calls_of_cur h.follows hcur
  cases i <;> exact hcalls.elim

end Ending

/-! ## `run_live` -/

section Runs

variable {σ C : Type} (D : Dag Feed Alarm σ C) (pick : Nat → Nat) (s : Runtime σ C)
  (target : TargetOs) (rt : RtConfig) (capacity : Capacity) (clock : Nat)
  (turns : List (Threads.Turn Party Decision Nat))

/-- The service while `main` iterates the runtime. -/
def live : PulseMoment σ C :=
  (program target rt).run D pick s (TransportDriver.spawnWith (Chan.fresh capacity) clock) turns

/-- The service after `main` has dropped the application. -/
def closing (later : List (Threads.Turn Party Decision Nat)) : PulseMoment σ C :=
  (program target rt).afterDrop D pick (live D pick s target rt capacity clock turns) later

theorem serving_live : (program target rt).Serving
    (live D pick s target rt capacity clock turns).loop.world
    (Moment.events (live D pick s target rt capacity clock turns).loop)
    (live D pick s target rt capacity clock turns).pool :=
  (program target rt).serving_run D pick s capacity clock turns

theorem emptied_live : Emptied (live D pick s target rt capacity clock turns).pool := by
  refine ((program target rt).threads.run_track (bridge Feed Alarm) (D.stage pick)
    (J := fun w ls p => (program target rt).Running w ls p ∧ Emptied p) ?_
    (fun _ _ _ _ o h => ⟨h.1.call o, h.2⟩) (fun _ _ _ t h => ⟨h.1.ambient t, h.2⟩)
    (fun _ _ _ _ _ _ h hmoves => ⟨h.1.moves hmoves, h.2.moves h.1 hmoves⟩)).2
  exact ⟨((program target rt).serving_run D pick s capacity clock []).toRunning,
    fun e he => absurd he (by simp [threadCalls, Threads.start])⟩

variable {later : List (Threads.Turn Party Decision Nat)}

theorem ending_closing (hrest : ∀ t ∈ later, t ≠ .loop) :
    Ending target rt (closing D pick s target rt capacity clock turns later).loop.world
      (Moment.events (closing D pick s target rt capacity clock turns later).loop)
      (closing D pick s target rt capacity clock turns later).pool := by
  refine (program target rt).threads.run_track (bridge Feed Alarm) (D.stage pick)
    (J := Ending target rt) ?_ (fun hmem => absurd rfl (hrest _ hmem))
    (fun _ _ _ t h => ⟨h.toClosing.ambient t, h.emptied⟩)
    (fun _ _ _ _ _ _ h hmoves => ⟨h.toClosing.moves hmoves, h.emptied.moves h.toRunning hmoves⟩)
  exact ⟨(serving_live D pick s target rt capacity clock turns).dropApplication,
    emptied_live D pick s target rt capacity clock turns⟩

/-- **`main` returns what was delivered.** Whatever the order of the moves while `main` iterates the
runtime and after it has dropped the application: if it returns, then what it returns are the
alarms the egress task delivered, all of them and in order, and the transport ended without an
error. -/
theorem live_delivered (hrest : ∀ t ∈ later, t ≠ .loop) {alarms : List Alarm}
    (hreturns : (closing D pick s target rt capacity clock turns later).pool.ended .main =
      some alarms) :
    alarms = delivered (live D pick s target rt capacity clock turns).loop.calls ∧
      (closing D pick s target rt capacity clock turns later).pool.ended .driver =
        some (.ok ()) := by
  have hending := ending_closing D pick s target rt capacity clock turns hrest
  have hcalls : (closing D pick s target rt capacity clock turns later).loop.calls =
      (live D pick s target rt capacity clock turns).loop.calls :=
    Program.calls_afterDrop D pick _ hrest
  generalize closing D pick s target rt capacity clock turns later = m at *
  have hat := hending.follows.at_cur .main
  rw [hending.follows.ended .main alarms hreturns] at hat
  obtain ⟨hcollected, ⟨e, htake⟩, r, hjoin⟩ := main_inr hat
  have hdriver : m.pool.ended .driver = some r :=
    hending.attended.calls _ (mem_threadCalls hjoin)
  obtain ⟨rfl, hforwarded, hrecv⟩ :=
    driver_end hending.toRunning (hending.follows.ended .driver r hdriver)
  refine ⟨?_, hdriver⟩
  have hout := hending.exchanged.outbound
  rw [hending.drained none hrecv, List.append_nil] at hout
  have hresults := hending.exchanged.results
  rw [hending.emptied e (mem_threadCalls htake), List.append_nil] at hresults
  calc alarms = collected (threadCalls m.pool) := by
        rw [collected_main hending.follows]
        exact hcollected.symm
    _ = forwarded (threadCalls m.pool) := hresults.symm
    _ = taken (threadCalls m.pool) := hforwarded
    _ = delivered m.loop.calls := hout.symm
    _ = delivered (live D pick s target rt capacity clock turns).loop.calls := by rw [hcalls]

variable {f : Nat → Threads.Turn Party Decision Nat}

theorem feeder_starts (hrest : ∀ n, f n ≠ .loop) (hfair : Threads.Fair f .driver) :
    ∃ n, (closing D pick s target rt capacity clock turns
      (Threads.turns f n)).pool.shared.started .feeder = true := by
  have hending (n : Nat) := ending_closing D pick s target rt capacity clock turns
    (Threads.forall_turns hrest n)
  by_contra hnever
  have hblocked (n : Nat) := fun h => hnever ⟨n, (hending n).feeder_started h⟩
  cases hended : (closing D pick s target rt capacity clock turns
      (Threads.turns f 0)).pool.ended .driver with
  | some r => exact hblocked 0 (Or.inl ⟨_, (hending 0).follows.ended _ r hended⟩)
  | none =>
    obtain ⟨n, a, hcur, -⟩ := Threads.reaches_ret (T := (program target rt).threads)
      (.of_unblocked fun n => (hending n).unblocked (hending n).driver fun j k hcur =>
        absurd (Or.inr ⟨j, k, hcur⟩) (hblocked n)) hfair hended
    exact hblocked n (Or.inl ⟨a, hcur⟩)

/-- **`run_live` returns what was delivered.** Let `main` drop the application after any order of
the moves of the runtime and the threads. Under any scheduler that lets each of the three threads
move again and again, the feeder, the driver and `main` get to their ends: from some moment on the
feeder has ended, the driver has ended without an error, and `main` has returned the alarms the
egress task delivered, all of them and in order. -/
theorem live_returns (hrest : ∀ n, f n ≠ .loop) (hfair : ∀ i, Threads.Fair f i) :
    ∃ n, ∀ n', n ≤ n' →
      let c := closing D pick s target rt capacity clock turns (Threads.turns f n')
      c.pool.ended .main =
        some (delivered (live D pick s target rt capacity clock turns).loop.calls) ∧
      c.pool.ended .driver = some (.ok ()) ∧ c.pool.ended .feeder = some () := by
  have hending (n : Nat) := ending_closing D pick s target rt capacity clock turns
    (Threads.forall_turns hrest n)
  have hcalls (n : Nat) : calls (Moment.events (closing D pick s target rt capacity clock turns
      (Threads.turns f n)).loop) =
        (live D pick s target rt capacity clock turns).loop.calls :=
    Program.calls_afterDrop D pick _ (Threads.forall_turns hrest n)
  obtain ⟨n₀, hstart⟩ := feeder_starts D pick s target rt capacity clock turns hrest
    (hfair .driver)
  have hfeeder (n : Nat) (hn : n₀ ≤ n) : (closing D pick s target rt capacity clock turns
      (Threads.turns f n)).pool.shared.started .feeder = true := by
    obtain ⟨k, rfl⟩ := Nat.exists_eq_add_of_le hn
    rw [Threads.turns_add, closing, Program.afterDrop, Threads.run_append]
    exact Program.started_run (hending n₀).attended hstart _
  obtain ⟨n₁, r₁, -, hfeederEnds⟩ := Threads.ends (i := Party.feeder) n₀ 0
    (fun n hn => (hending n).unblocked (hfeeder n hn) fun j k hcur => by
      rcases (hending n).join_cur hcur with ⟨hi, -⟩ | ⟨hi, -⟩ <;> cases hi)
    (fun n _ => (hending n).feeder_bound) (hfair .feeder)
  obtain ⟨n₂, r₂, -, hdriverEnds⟩ := Threads.ends (i := Party.driver) n₁
    ((delivered (live D pick s target rt capacity clock turns).loop.calls).length + 1)
    (fun n hn => (hending n).unblocked (hending n).driver fun j k hcur => by
      rcases (hending n).join_cur hcur with ⟨-, rfl⟩ | ⟨hi, -⟩
      · exact Option.isSome_of_mem (hfeederEnds n hn)
      · cases hi)
    (fun n _ => hcalls n ▸ (hending n).driver_bound) (hfair .driver)
  obtain ⟨n₃, alarms, -, hmainEnds⟩ := Threads.ends (i := Party.main) n₂
    ((delivered (live D pick s target rt capacity clock turns).loop.calls).length + 1)
    (fun n hn => (hending n).unblocked (hending n).main fun j k hcur => by
      rcases (hending n).join_cur hcur with ⟨hi, -⟩ | ⟨-, rfl⟩
      · cases hi
      · exact Option.isSome_of_mem (hdriverEnds n hn))
    (fun n hn => hcalls n ▸ (hending n).main_bound (hdriverEnds n hn)) (hfair .main)
  refine ⟨max n₁ n₃, fun n hn => ?_⟩
  intro c
  have hreturns := hmainEnds n (Nat.le_trans (Nat.le_max_right n₁ n₃) hn)
  obtain ⟨rfl, hdriver⟩ :=
    live_delivered D pick s target rt capacity clock turns (Threads.forall_turns hrest n) hreturns
  exact ⟨hreturns, hdriver, hfeederEnds n (Nat.le_trans (Nat.le_max_left n₁ n₃) hn)⟩

end Runs

/-- Each thread in turn. -/
def roundRobin : Nat → Threads.Turn Party Decision Nat :=
  Threads.inTurn .feeder [.driver, .main] .calm

theorem fair_roundRobin (i : Party) : Threads.Fair roundRobin i :=
  Threads.fair_inTurn Decision.calm (by cases i <;> simp)

/-- One feed and one iteration, and then each thread in turn: `main` returns the one alarm, and the
threads are gone. -/
theorem live_returns_armed :
    let closing := closing (timed { maxBatch := 1, maxBatch_pos := by decide } watchdog).dag
      (fun _ => 0) (.start (FsmBatchTask.default watchdog) (fun _ => (.new none, .new none)) 7)
      .linux .normal none 0
      ([.thread .driver .calm, .thread .feeder .calm] ++ List.replicate 8 .loop)
    ∃ n, ∀ n', n ≤ n' →
      (closing (Threads.turns roundRobin n')).pool.ended .main = some [.armed] ∧
      (closing (Threads.turns roundRobin n')).pool.ended .driver = some (.ok ()) ∧
      (closing (Threads.turns roundRobin n')).pool.ended .feeder = some () := by
  intro closing
  obtain ⟨n, hn⟩ := live_returns (timed { maxBatch := 1, maxBatch_pos := by decide } watchdog).dag
    (fun _ => 0) (.start (FsmBatchTask.default watchdog) (fun _ => (.new none, .new none)) 7)
    .linux .normal none 0
    ([.thread .driver .calm, .thread .feeder .calm] ++ List.replicate 8 .loop)
    (fun n hloop => by cases hloop) fair_roundRobin
  refine ⟨n, fun n' hle => ?_⟩
  obtain ⟨hmain, hdriver, hfeeder⟩ := hn n' hle
  exact ⟨hmain, hdriver, hfeeder⟩

end Pulse

end Msrs
