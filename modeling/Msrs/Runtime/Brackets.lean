import Msrs.Runtime.Service
import Msrs.Runtime.Drains
import Msrs.Transport.Drain
import Msrs.Transport.Clock

/-!
# Cycle times bracket the batches

A service whose ingress task is a `CycleIngressTask`, under a clock that is never set back. The
times of the cycles never decrease, every event of a cycle was sent by the cycle's time, and a
cycle below the batch cap has, with the cycles before it, everything that was accepted before
the last receive attempt of its drain (`cycles_bracket`).
-/

namespace Msrs

open Interleave Fifo

variable {T U S B : Type}

theorem exists_acceptance {ls : List (Event T U)} {q : Nat} {v : T}
    (h : (accepted ls)[q]? = some v) :
    ∃ pre e post, ls = pre ++ e :: post ∧ e.accepted? = some v ∧ (accepted pre).length = q := by
  induction ls generalizing q with
  | nil => simp at h
  | cons l ls ih =>
    have hsplit : accepted (l :: ls) = accepted [l] ++ accepted ls := accepted_append [l] ls
    rw [hsplit] at h
    cases hl : l.accepted? with
    | none =>
      have hnone : accepted [l] = [] := by simp [accepted, hl]
      rw [hnone] at h
      obtain ⟨pre, e, post, rfl, he, rfl⟩ := ih h
      refine ⟨l :: pre, e, post, rfl, he, ?_⟩
      rw [show accepted (l :: pre) = accepted [l] ++ accepted pre from accepted_append [l] pre,
        hnone, List.nil_append]
    | some x =>
      have hone : accepted [l] = [x] := by simp [accepted, hl]
      rw [hone] at h
      cases q with
      | zero => exact ⟨[], l, ls, rfl, hl.trans h, rfl⟩
      | succ q =>
        obtain ⟨pre, e, post, rfl, he, rfl⟩ := ih h
        refine ⟨l :: pre, e, post, rfl, he, ?_⟩
        rw [show accepted (l :: pre) = accepted [l] ++ accepted pre from accepted_append [l] pre,
          hone, List.singleton_append, List.length_cons]

/-! ## One drain -/

/-- What the labels of one iteration of `CycleIngressTask` from the bridge `w` say about its
cycle. -/
structure DrainedInto (cap : Nat) (w : Bridge T U) (ls : List (Event T U)) (c : Cycle T) :
    Prop where
  events : received (calls ls) = c.events
  /-- The clock is read after the events have been received. -/
  read : ∃ upto post, ls = upto ++ post ∧ received (calls upto) = c.events ∧
    clockAt w.clock upto = c.nowNs
  /-- Below the cap, the last attempt has found nothing. -/
  short : c.events.length < cap → ∃ pre e post, ls = pre ++ .attempt (.error e) :: post ∧
    (∀ r, .attempt r ∉ post) ∧ w.inbound.queue ++ accepted pre = c.events

theorem CycleIngressTask.ran_process {task : CycleIngressTask} {a₀ a : CuMsg (Cycle T)}
    {r : CuResult} {w w' : Bridge T U} {ls : List (Event T U)}
    (h : Shared.Ran (bridge T U) (task.process a₀) w ls w' (a, r)) :
    ∃ c : Cycle T, a = cycleSlot c ∧ DrainedInto task.maxBatch w ls c := by
  obtain ⟨events, drain, pending, now, hd, hcalls, -, rfl⟩ := yields_process h.yields
  refine ⟨_, rfl, ?_, ?_, ?_⟩
  · rw [hcalls, received_append, hd.received]
    exact List.append_nil events
  · have hnow : calls ls = (drain ++ [⟨.len, pending⟩]) ++ ⟨.now, now⟩ :: [] := by
      rw [hcalls, List.append_assoc]
      rfl
    obtain ⟨upto, post, rfl, hupto, -⟩ := calls_eq_append_cons hnow
    obtain ⟨v, hv, hread, -⟩ := ((bridge T U).legal_append _ _ _ _).mp h.legal
    refine ⟨upto, _, rfl, ?_, ?_⟩
    · rw [hupto, received_append, hd.received]
      exact List.append_nil events
    · rw [← clock_law hv]
      exact hread
  · intro hshort
    obtain ⟨pre, e, post, rfl, hpost, hevents⟩ := hd.cut hshort hcalls h.legal
    refine ⟨pre, e, post, rfl, ?_, hevents⟩
    intro r hr
    have hmem := mem_calls.mpr hr
    rw [hpost] at hmem
    simp at hmem

/-! ## One history -/

/-- Where cycle `i` stands in a history, after cycles with the events `earlier`. -/
structure Bracketed (clock cap i : Nat) (earlier : List T) (h : List (Nat × Event T U))
    (c : Cycle T) : Prop where
  /-- Its time was read when its events, and the earlier ones, had been accepted. -/
  read : ∃ upto post, h = upto ++ post ∧ clockAt clock (upto.map Prod.snd) = c.nowNs ∧
    earlier ++ c.events <+: accepted (upto.map Prod.snd)
  /-- Below the cap, nothing else had been accepted before its last receive attempt. -/
  short : c.events.length < cap → ∃ pre e post, h = pre ++ (3 * i, .attempt (.error e)) :: post ∧
    (∀ r, (3 * i, .attempt r) ∉ post) ∧ accepted (pre.map Prod.snd) = earlier ++ c.events

theorem Bracketed.extend {clock cap i k : Nat} {earlier : List T} {h : List (Nat × Event T U)}
    {c : Cycle T} (hc : Bracketed clock cap i earlier h c) (hk : k ≠ 3 * i)
    (ls : List (Event T U)) : Bracketed clock cap i earlier (h ++ Shared.stamp k ls) c := by
  obtain ⟨⟨upto, post, rfl, hnow, hevents⟩, hshort⟩ := hc
  refine ⟨⟨upto, post ++ Shared.stamp k ls, by simp, hnow, hevents⟩, ?_⟩
  intro hlt
  obtain ⟨pre, e, post', hcut, hlast, hacc⟩ := hshort hlt
  refine ⟨pre, e, post' ++ Shared.stamp k ls, ?_, ?_, hacc⟩
  · rw [hcut]
    simp
  · intro r hr
    rcases List.mem_append.mp hr with hr | hr
    · exact hlast r hr
    · exact hk (Shared.fst_of_mem_stamp hr).symm

/-- Under a clock that is never set back, its events were sent no later than its time. -/
theorem Bracketed.exists_sent {clock cap i j : Nat} {earlier : List T}
    {h : List (Nat × Event T U)} {c : Cycle T} {v : T} (hc : Bracketed clock cap i earlier h c)
    (hsteady : Steady clock (h.map Prod.snd)) (hv : c.events[j]? = some v) :
    ∃ pre e post, h.map Prod.snd = pre ++ e :: post ∧ e.accepted? = some v ∧
      (accepted pre).length = earlier.length + j ∧ clockAt clock pre ≤ c.nowNs := by
  obtain ⟨⟨upto, rest, rfl, hnow, tail, htail⟩, -⟩ := hc
  have hget : (accepted (upto.map Prod.snd))[earlier.length + j]? = some v := by
    rw [← htail, List.append_assoc, List.getElem?_append_right (Nat.le_add_right _ _),
      Nat.add_sub_cancel_left, List.getElem?_append_left (List.getElem?_eq_some_iff.mp hv).1]
    exact hv
  obtain ⟨pre, e, post, hsplit, he, hcount⟩ := exists_acceptance hget
  rw [List.map_append, hsplit] at hsteady
  have hle : clockAt clock pre ≤ c.nowNs := by
    rw [← hnow, hsplit]
    exact hsteady.left.clockAt_le
  refine ⟨pre, e, post ++ rest.map Prod.snd, ?_, he, hcount, hle⟩
  rw [List.map_append, hsplit, List.append_assoc, List.cons_append]

theorem DrainedInto.bracketed {cap clock i k : Nat} {w w' : Bridge T U} {ls : List (Event T U)}
    {earlier : List T} {h : List (Nat × Event T U)} {c : Cycle T} (hd : DrainedInto cap w ls c)
    (hlegal : (bridge T U).Legal w ls w') (hclock : w.clock = clockAt clock (h.map Prod.snd))
    (haccepted : accepted (h.map Prod.snd) = earlier ++ w.inbound.queue) (hk : 3 * i = k) :
    Bracketed clock cap i earlier (h ++ Shared.stamp k ls) c := by
  obtain ⟨-, ⟨upto, post, rfl, hreceived, hnow⟩, hshort⟩ := hd
  refine ⟨⟨h ++ Shared.stamp k upto, Shared.stamp k post, by simp, ?_, ?_⟩, ?_⟩
  · rw [List.map_append, Shared.map_snd_stamp, clockAt_append, ← hclock]
    exact hnow
  · obtain ⟨v, hv, -⟩ := ((bridge T U).legal_append _ _ _ _).mp hlegal
    have hlaw := queue_law hv
    rw [hreceived] at hlaw
    rw [List.map_append, Shared.map_snd_stamp, accepted_append, haccepted, List.append_assoc,
      hlaw, ← List.append_assoc]
    exact List.prefix_append _ _
  · intro hlt
    obtain ⟨pre, e, post', hcut, hlast, hacc⟩ := hshort hlt
    rw [hcut, hk]
    refine ⟨h ++ Shared.stamp k pre, e, Shared.stamp k post', by simp [Shared.stamp], ?_, ?_⟩
    · intro r hr
      obtain ⟨l, hl, heq⟩ := List.mem_map.mp hr
      obtain ⟨-, rfl⟩ := Prod.mk.inj heq
      exact hlast r hl
    · rw [List.map_append, Shared.map_snd_stamp, accepted_append, haccepted,
        List.append_assoc, hacc]

/-- The cycles of a history. -/
structure Brackets (clock cap : Nat) (cycles : List (Cycle T)) (h : List (Nat × Event T U)) :
    Prop where
  each : ∀ i c, cycles[i]? = some c →
    Bracketed clock cap i ((cycles.take i).flatMap Cycle.events) h c
  sorted : Steady clock (h.map Prod.snd) → (cycles.map Cycle.nowNs).Pairwise (· ≤ ·) ∧
    ∀ c ∈ cycles, c.nowNs ≤ clockAt clock (h.map Prod.snd)

theorem Brackets.extend {clock cap k : Nat} {cycles : List (Cycle T)}
    {h : List (Nat × Event T U)} (hb : Brackets clock cap cycles h)
    (hk : ∀ i, i < cycles.length → k ≠ 3 * i) (ls : List (Event T U)) :
    Brackets clock cap cycles (h ++ Shared.stamp k ls) := by
  refine ⟨?_, ?_⟩
  · intro i c hc
    exact (hb.each i c hc).extend (hk i (List.getElem?_eq_some_iff.mp hc).1) ls
  · intro hsteady
    rw [List.map_append] at hsteady ⊢
    obtain ⟨hsorted, hle⟩ := hb.sorted hsteady.left
    refine ⟨hsorted, ?_⟩
    intro c hc
    exact Nat.le_trans (hle c hc) hsteady.clockAt_le

theorem Brackets.snoc {clock cap k : Nat} {cycles : List (Cycle T)} {c : Cycle T}
    {h : List (Nat × Event T U)} {upto post : List (Event T U)}
    (hb : Brackets clock cap cycles h)
    (hnew : Bracketed clock cap cycles.length (cycles.flatMap Cycle.events)
      (h ++ Shared.stamp k (upto ++ post)) c)
    (hnow : clockAt clock (h.map Prod.snd ++ upto) = c.nowNs) (hk : 3 * cycles.length = k) :
    Brackets clock cap (cycles ++ [c]) (h ++ Shared.stamp k (upto ++ post)) := by
  refine ⟨?_, ?_⟩
  · intro i c' hget
    rcases Mealy.getElem?_snoc.mp hget with hget | ⟨rfl, rfl⟩
    · have hi := (List.getElem?_eq_some_iff.mp hget).1
      rw [List.take_append_of_le_length (Nat.le_of_lt hi)]
      exact (hb.each i c' hget).extend (by omega) _
    · rw [List.take_left]
      exact hnew
  · intro hsteady
    have hmap : (h ++ Shared.stamp k (upto ++ post)).map Prod.snd =
        (h.map Prod.snd ++ upto) ++ post := by
      rw [List.map_append, Shared.map_snd_stamp, List.append_assoc]
    rw [hmap] at hsteady ⊢
    obtain ⟨hsorted, hle⟩ := hb.sorted hsteady.left.left
    -- The new time lies between what the clock showed before the drain and what it shows after.
    have hbefore := hsteady.left.clockAt_le
    have hafter := hsteady.clockAt_le
    rw [hnow] at hbefore hafter
    refine ⟨?_, ?_⟩
    · rw [List.map_append, List.pairwise_append]
      refine ⟨hsorted, List.pairwise_singleton _ _, ?_⟩
      intro t ht t' ht'
      obtain ⟨c', hc', rfl⟩ := List.mem_map.mp ht
      obtain rfl : t' = c.nowNs := List.mem_singleton.mp ht'
      exact Nat.le_trans (hle c' hc') hbefore
    · intro c' hc'
      rcases List.mem_append.mp hc' with hc' | hc'
      · exact Nat.le_trans (hle c' hc') (Nat.le_trans hbefore hafter)
      · rw [List.mem_singleton.mp hc']
        exact hafter

/-! ## Every run -/

/-- What holds between two stages: `cycles` are in the slots filled so far. -/
structure CyclesAt (w₀ : Bridge T U) (cap k : Nat) (rt : Runtime S (Slots (Cycle T) B))
    (w : Bridge T U) (h : List (Nat × Event T U)) (cycles : List (Cycle T)) : Prop where
  legal : (bridge T U).Legal w₀ (h.map Prod.snd) w
  filled : Pipeline.filled k rt = cycles.map cycleSlot
  length : cycles.length = (k + 2) / 3
  received : received (calls (h.map Prod.snd)) = cycles.flatMap Cycle.events
  brackets : Brackets w₀.clock cap cycles h

theorem CyclesAt.idle {w₀ w w' : Bridge T U} {cap k : Nat}
    {rt rt' : Runtime S (Slots (Cycle T) B)} {h : List (Nat × Event T U)}
    {cycles : List (Cycle T)} {ls : List (Event T U)} (hc : CyclesAt w₀ cap k rt w h cycles)
    (hk : k % 3 ≠ 0) (hf : Pipeline.filled (k + 1) rt' = Pipeline.filled k rt)
    (hrecv : Msrs.received (calls ls) = []) (hlegal : (bridge T U).Legal w ls w') :
    CyclesAt w₀ cap (k + 1) rt' w' (h ++ Shared.stamp k ls) cycles := by
  obtain ⟨hlegal₀, hfilled, hlength, hreceived, hbrackets⟩ := hc
  refine ⟨?_, hf.trans hfilled, by omega, ?_, ?_⟩
  · rw [List.map_append, Shared.map_snd_stamp]
    exact ((bridge T U).legal_append _ _ _ _).mpr ⟨w, hlegal₀, hlegal⟩
  · rw [List.map_append, Shared.map_snd_stamp, calls_append, received_append, hrecv,
      List.append_nil]
    exact hreceived
  · exact hbrackets.extend (fun i hi => by omega) ls

variable {task : CycleIngressTask}

theorem CyclesAt.drain {w₀ w w' : Bridge T U} {k : Nat} {rt rt' : Runtime S (Slots (Cycle T) B)}
    {h : List (Nat × Event T U)} {cycles : List (Cycle T)} {ls : List (Event T U)}
    {a₀ a : CuMsg (Cycle T)} {r : CuResult} (hw : w₀.inbound.queue = [])
    (hc : CyclesAt w₀ task.maxBatch k rt w h cycles) (hk : k % 3 = 0)
    (hf : Pipeline.filled (k + 1) rt' = Pipeline.filled k rt ++ [a])
    (hran : Shared.Ran (bridge T U) (task.process a₀) w ls w' (a, r)) :
    ∃ c, CyclesAt w₀ task.maxBatch (k + 1) rt' w' (h ++ Shared.stamp k ls) (cycles ++ [c]) := by
  obtain ⟨hlegal₀, hfilled, hlength, hreceived, hbrackets⟩ := hc
  obtain ⟨c, rfl, hd⟩ := CycleIngressTask.ran_process hran
  have hstage : 3 * cycles.length = k := by omega
  have hclock : w.clock = clockAt w₀.clock (h.map Prod.snd) := clock_law hlegal₀
  have haccepted : accepted (h.map Prod.snd) = cycles.flatMap Cycle.events ++ w.inbound.queue := by
    have hlaw := queue_law hlegal₀
    rwa [hw, List.nil_append, hreceived] at hlaw
  have hnew := hd.bracketed hran.legal hclock haccepted hstage
  obtain ⟨hevents, ⟨upto, post, rfl, -, hnow⟩, -⟩ := hd
  refine ⟨c, ?_, ?_, ?_, ?_, ?_⟩
  · rw [List.map_append, Shared.map_snd_stamp]
    exact ((bridge T U).legal_append _ _ _ _).mpr ⟨w, hlegal₀, hran.legal⟩
  · rw [hf, hfilled, List.map_append]
    rfl
  · rw [List.length_append, List.length_singleton]
    omega
  · rw [List.map_append, Shared.map_snd_stamp, calls_append, received_append, hreceived, hevents,
      List.flatMap_append, List.flatMap_singleton]
  · refine hbrackets.snoc hnew ?_ hstage
    rw [clockAt_append, ← hclock]
    exact hnow

variable {adapter : Adapter (Cycle T) S B} {egress : Egress U B} {pick : Nat → Nat}

theorem CyclesAt.step {w₀ w w' : Bridge T U} {k : Nat} {rt rt' : Runtime S (Slots (Cycle T) B)}
    {h : List (Nat × Event T U)} {cycles : List (Cycle T)} {ls : List (Event T U)}
    (hw : w₀.inbound.queue = []) (hc : CyclesAt w₀ task.maxBatch k rt w h cycles)
    (hran : Shared.Ran (bridge T U)
      ((service (.cycleIngressTask task) adapter egress).dag.stage pick k rt) w ls w' rt') :
    ∃ cycles', CyclesAt w₀ task.maxBatch (k + 1) rt' w' (h ++ Shared.stamp k ls) cycles' := by
  rcases Pipeline.yields_stage hran.yields with ⟨h0, a, r, hsrc, rfl⟩ | ⟨h1, s', b, r, htr, rfl⟩ |
    ⟨h2, r, hsink, rfl⟩
  · obtain ⟨hf, -, -⟩ := Pipeline.views_source h0 rt.state (a, (rt.ring (pick (k / 3))).2) r
    obtain ⟨c, hc'⟩ := hc.drain hw h0 hf ⟨hran.legal, hsrc⟩
    exact ⟨_, hc'⟩
  · obtain ⟨hf, -, -⟩ := Pipeline.views_transform h1 s' b r
    exact ⟨cycles, hc.idle (by omega) hf (idle_of_clock (adapter.within_process _ _ _) htr).1
      hran.legal⟩
  · obtain ⟨hf, -, -, -⟩ := Pipeline.views_sink h2 r (pick (k / 3))
    exact ⟨cycles, hc.idle (by omega) hf (received_of_sends (egress.within_process _) hsink)
      hran.legal⟩

/-- **Cycle times bracket the batches.** At every moment of every run under a clock that is
never set back, the filled ingress slots are those of cycles, stamped with their times, such
that

* the times never decrease,
* the events of a cycle are those accepted next after the events of the earlier cycles, and
  each was sent when the clock showed at most the cycle's time,
* and for a cycle below the batch cap, what was accepted before the last receive attempt of its
  drain is what is in this and the earlier cycles. -/
theorem cycles_bracket (task : CycleIngressTask) (adapter : Adapter (Cycle T) S B)
    (egress : Egress U B) (pick : Nat → Nat) (ring : Nat → Slots (Cycle T) B) (id : UInt64)
    (capacity : Capacity) (clock : Nat) (sched : Schedule T U)
    (hsteady : Steady clock (serviceRun (.cycleIngressTask task) adapter egress pick ring id
      (TransportDriver.spawnWith (Chan.fresh capacity) clock) sched).events) :
    let m := serviceRun (.cycleIngressTask task) adapter egress pick ring id
      (TransportDriver.spawnWith (Chan.fresh capacity) clock) sched
    ∃ cycles : List (Cycle T),
      Pipeline.filled m.stage m.mem = cycles.map cycleSlot ∧
      (cycles.map Cycle.nowNs).Pairwise (· ≤ ·) ∧
      ∀ i c, cycles[i]? = some c →
        (∀ j v, c.events[j]? = some v → ∃ pre e post, m.events = pre ++ e :: post ∧
          e.accepted? = some v ∧
          (accepted pre).length = ((cycles.take i).flatMap Cycle.events).length + j ∧
          clockAt clock pre ≤ c.nowNs) ∧
        (c.events.length < task.maxBatch →
          ∃ pre e post, m.hist = pre ++ (3 * i, Event.attempt (.error e)) :: post ∧
            (∀ r, (3 * i, Event.attempt r) ∉ post) ∧
            accepted (pre.map Prod.snd) = (cycles.take (i + 1)).flatMap Cycle.events) := by
  intro m
  obtain ⟨w, h₀, ls, ⟨cycles, hc⟩, -, hhist, -⟩ := Shared.run_rule (bridge T U)
    ((service (.cycleIngressTask task) adapter egress).dag.stage pick)
    (J := fun k rt w h => ∃ cycles, CyclesAt (TransportDriver.spawnWith (Chan.fresh capacity)
      clock) task.maxBatch k rt w h cycles)
    (s := .start adapter.default ring id)
    (w := TransportDriver.spawnWith (Chan.fresh capacity) clock)
    ⟨[], rfl, rfl, rfl, rfl, by simp, by simp⟩
    (fun k rt w h ls w' rt' hJ _ hran => by
      obtain ⟨cycles, hc⟩ := hJ
      exact hc.step rfl hran) sched
  change m.hist = h₀ ++ Shared.stamp m.stage ls at hhist
  change CyclesAt _ _ m.stage m.mem w h₀ cycles at hc
  have hlength := hc.length
  have hbrackets : Brackets clock task.maxBatch cycles m.hist := by
    rw [hhist]
    exact hc.brackets.extend (fun i hi => by omega) ls
  refine ⟨cycles, hc.filled, (hbrackets.sorted hsteady).1, ?_⟩
  intro i c hget
  have hbracketed := hbrackets.each i c hget
  refine ⟨?_, ?_⟩
  · intro j v hv
    exact hbracketed.exists_sent hsteady hv
  · intro hlt
    obtain ⟨pre, e, post, hcut', hlast, hacc⟩ := hbracketed.short hlt
    refine ⟨pre, e, post, hcut', hlast, ?_⟩
    rw [hacc, List.take_add_one, hget, List.flatMap_append]
    simp

/-- A drain that stops short at time 50, and a message that is late for it. -/
theorem cycles_bracket_late :
    let m := pairsRun [.env (.send 7), .move, .env (.clock 50), .move, .env (.send 8), .move, .move,
      .move]
    ∃ cycles : List (Cycle UInt8), Pipeline.filled m.stage m.mem = cycles.map cycleSlot ∧
      (cycles.map Cycle.nowNs).Pairwise (· ≤ ·) ∧
      ∀ c, cycles[0]? = some c → c.events.length < 2 →
        ∃ pre e post, m.hist = pre ++ (0, Event.attempt (.error e)) :: post ∧
          (∀ r, (0, Event.attempt r) ∉ post) ∧
          accepted (pre.map Prod.snd) = (cycles.take 1).flatMap Cycle.events := by
  intro m
  have hsteady : Steady 40 m.events := show [40, 50].Pairwise (· ≤ ·) by decide
  obtain ⟨cycles, hfilled, hsorted, heach⟩ := cycles_bracket _ _ _ _ _ _ none 40 _ hsteady
  exact ⟨cycles, hfilled, hsorted, fun c hc => (heach 0 c hc).2⟩

end Msrs
