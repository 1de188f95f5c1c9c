import Msrs.Runtime.Service
import Msrs.Transport.Drain

/-!
# When a queued message is delivered

A service whose ingress task is a `CycleIngressTask` with batch cap `m`. A message with `p`
messages ahead of it when iteration `k` begins is event `p % m` of the cycle of iteration
`k + p / m`, whatever arrives later (`exact_delivery_cycle`): every drain either takes it or
moves it up by a whole batch (`Placed.step`).
-/

namespace Msrs

open Interleave Fifo

variable {T U S B : Type}

/-- The drains from the beginning of iteration `k` to the beginning of stage `i`. -/
def drainsSince (k i : Nat) : Nat := (i + 2) / 3 - k

/-- Where a message is at the beginning of stage `i` that had `p` messages ahead of it at the
beginning of iteration `k`. -/
structure Placed (cap k p : Nat) (x : T) (i : Nat) (rt : Runtime S (Slots (Cycle T) B))
    (w : Bridge T U) : Prop where
  started : 3 * k ≤ i
  length_filled : (Pipeline.filled i rt).length = (i + 2) / 3
  queued : cap * drainsSince k i ≤ p → w.inbound.queue[p - cap * drainsSince k i]? = some x
  taken : p < cap * drainsSince k i → ∃ c : Cycle T,
    (Pipeline.filled i rt)[k + p / cap]? = some (cycleSlot c) ∧ c.events[p % cap]? = some x

theorem Placed.begin {cap k p : Nat} {x : T} {rt : Runtime S (Slots (Cycle T) B)}
    {w : Bridge T U} (hlength : (Pipeline.filled (3 * k) rt).length = (3 * k + 2) / 3)
    (hx : w.inbound.queue[p]? = some x) : Placed cap k p x (3 * k) rt w := by
  have hnone : drainsSince k (3 * k) = 0 := by
    unfold drainsSince
    omega
  refine ⟨Nat.le_refl _, hlength, ?_, ?_⟩
  · intro _
    rwa [hnone, Nat.mul_zero, Nat.sub_zero]
  · intro hlt
    rw [hnone, Nat.mul_zero] at hlt
    exact absurd hlt (Nat.not_lt_zero p)

variable {task : CycleIngressTask} {adapter : Adapter (Cycle T) S B} {egress : Egress U B}
  {pick : Nat → Nat}

theorem Placed.idle {cap k p i : Nat} {x : T} {rt rt' : Runtime S (Slots (Cycle T) B)}
    {w w' : Bridge T U} {ls : List (Event T U)} (h : Placed cap k p x i rt w) (hi : i % 3 ≠ 0)
    (hf : Pipeline.filled (i + 1) rt' = Pipeline.filled i rt)
    (hrecv : received (calls ls) = []) (hlegal : (bridge T U).Legal w ls w') :
    Placed cap k p x (i + 1) rt' w' := by
  have hsame : (i + 1 + 2) / 3 = (i + 2) / 3 := by omega
  have hdrains : drainsSince k (i + 1) = drainsSince k i := by rw [drainsSince, hsame]; rfl
  have hlaw := queue_law hlegal
  rw [hrecv, List.nil_append] at hlaw
  refine ⟨Nat.le_succ_of_le h.started, ?_, ?_, ?_⟩
  · rw [hf, hsame]
    exact h.length_filled
  · intro hle
    rw [hdrains] at hle ⊢
    have hget := h.queued hle
    rw [← hlaw, List.getElem?_append_left (List.getElem?_eq_some_iff.mp hget).1]
    exact hget
  · rw [hdrains, hf]
    exact h.taken

/-- Each stage leaves the message in place, takes it, or moves it up by a batch. -/
theorem Placed.step {k p i : Nat} {x : T} {rt rt' : Runtime S (Slots (Cycle T) B)}
    {w w' : Bridge T U} {ls : List (Event T U)} (h : Placed task.maxBatch k p x i rt w)
    (hran : Shared.Ran (bridge T U)
      ((service (.cycleIngressTask task) adapter egress).dag.stage pick i rt) w ls w' rt') :
    Placed task.maxBatch k p x (i + 1) rt' w' := by
  have hpos := task.maxBatch_pos
  rcases Pipeline.yields_stage hran.yields with ⟨h0, a, r, hsrc, rfl⟩ | ⟨h1, s', b, r, htr, rfl⟩ |
    ⟨h2, r, hsink, rfl⟩
  · obtain ⟨hf, -, -⟩ := Pipeline.views_source h0 rt.state (a, (rt.ring (pick (i / 3))).2) r
    obtain ⟨events, drain, pending, now, hd, hcalls, -, rfl⟩ :=
      CycleIngressTask.yields_process hsrc
    -- One drain more, from a queue in which the message has `q` ahead of it.
    have hstarted := h.started
    have hlength := h.length_filled
    have hdrains : drainsSince k (i + 1) = drainsSince k i + 1 := by
      unfold drainsSince
      omega
    have hslot : k + drainsSince k i = (Pipeline.filled i rt).length := by
      rw [hlength]
      unfold drainsSince
      omega
    have htakes {q : Nat} (hq : w.inbound.queue[q]? = some x) :=
      hd.takes hcalls rfl hran.legal hq
    have hqueued := h.queued
    have htaken := h.taken
    generalize drainsSince k i = e at hdrains hslot hqueued htaken
    refine ⟨by omega, ?_, ?_, ?_⟩
    · rw [hf, List.length_append, hlength, List.length_singleton]
      omega
    · intro hle
      rw [hdrains, Nat.mul_succ] at hle ⊢
      rw [← Nat.sub_sub]
      exact (htakes (hqueued (by omega))).2 (by omega)
    · intro hlt
      rw [hdrains, Nat.mul_succ] at hlt
      rw [hf]
      by_cases hearlier : p < task.maxBatch * e
      · obtain ⟨c, hc, hx⟩ := htaken hearlier
        refine ⟨c, ?_, hx⟩
        rwa [List.getElem?_append_left (List.getElem?_eq_some_iff.mp hc).1]
      · obtain ⟨q, rfl⟩ := Nat.exists_eq_add_of_le (Nat.le_of_not_lt hearlier)
        have hq : q < task.maxBatch := by omega
        have hget := hqueued (Nat.le_add_right _ _)
        rw [Nat.add_sub_cancel_left] at hget
        rw [Nat.mul_add_div hpos, Nat.div_eq_of_lt hq, Nat.add_zero, hslot,
          List.getElem?_concat_length, Nat.mul_add_mod, Nat.mod_eq_of_lt hq]
        exact ⟨_, rfl, (htakes hget).1 hq⟩
  · obtain ⟨hf, -, -⟩ := Pipeline.views_transform h1 s' b r
    exact h.idle (by omega) hf (idle_of_clock (adapter.within_process _ _ _) htr).1 hran.legal
  · obtain ⟨hf, -, -, -⟩ := Pipeline.views_sink h2 r (pick (i / 3))
    exact h.idle (by omega) hf (received_of_sends (egress.within_process _) hsink) hran.legal

variable (task adapter egress) in
/-- **The exact delivery cycle.** From a moment at which iteration `k` begins with `p` messages
queued ahead of `x`, whatever the transport does from there on: once the drain of iteration
`k + p / maxBatch` is over, `x` is event `p % maxBatch` of its cycle; and that drain comes, if
only the loop goes on. -/
theorem exact_delivery_cycle (pick : Nat → Nat) (ring : Nat → Slots (Cycle T) B) (id : UInt64)
    (w : Bridge T U) (sched : Schedule T U) {k p : Nat} {x : T}
    (hstage : (serviceRun (.cycleIngressTask task) adapter egress pick ring id w sched).stage =
      3 * k)
    (hbegin : calls ((serviceRun (.cycleIngressTask task) adapter egress pick ring id w
      sched).ofStage (3 * k)) = [])
    (hx : (serviceRun (.cycleIngressTask task) adapter egress pick ring id w
      sched).world.inbound.queue[p]? = some x) :
    (∀ later : Schedule T U,
      let m := serviceRun (.cycleIngressTask task) adapter egress pick ring id w (sched ++ later)
      3 * (k + p / task.maxBatch) < m.stage → ∃ c : Cycle T,
        (Pipeline.filled m.stage m.mem)[k + p / task.maxBatch]? = some (cycleSlot c) ∧
        c.events[p % task.maxBatch]? = some x) ∧
    ∀ f : Nat → Shared.Choice (Act T U), Shared.Fair f →
      ∃ n, 3 * (k + p / task.maxBatch) < (serviceRun (.cycleIngressTask task) adapter egress pick
        ring id w (sched ++ Shared.first f n)).stage := by
  have hcur := serviceRun_begin (.cycleIngressTask task) adapter egress pick ring id sched w
  have hlog := logged_serviceRun (.cycleIngressTask task) adapter egress pick ring id sched w
  simp only [serviceRun_append]
  dsimp only at hcur
  generalize serviceRun (.cycleIngressTask task) adapter egress pick ring id w sched = m at *
  rw [← hstage] at hbegin
  have hplaced : Placed task.maxBatch k p x m.stage m.mem m.world := by
    rw [hstage] at hlog ⊢
    exact .begin (Pipeline.length_filled hlog) hx
  refine ⟨?_, ?_⟩
  · intro later hlate
    rcases Shared.run_rule_from (bridge T U)
        ((service (.cycleIngressTask task) adapter egress).dag.stage pick)
        (J := Placed task.maxBatch k p x) m
        (fun ls w' rt' hran => by
          rw [hcur hbegin] at hran
          exact hplaced.step hran)
        (fun i rt w ls w' rt' h hran => h.step hran) later with ⟨hsame, -⟩ | ⟨w₀, ls, h, -⟩
    · rw [hsame, hstage] at hlate
      have hle : k ≤ k + p / task.maxBatch := Nat.le_add_right _ _
      omega
    · refine h.taken ?_
      have hpos := task.maxBatch_pos
      have hp := Nat.lt_mul_div_succ p hpos
      refine Nat.lt_of_lt_of_le hp (Nat.mul_le_mul_left _ ?_)
      unfold drainsSince
      omega
  · intro f hf
    exact Shared.reaches_stage (bridge T U) _ m hf _

/-- The third of three messages comes first in the second iteration. -/
theorem exact_delivery_cycle_third :
    let m := pairsRun ([.env (.send 7), .env (.send 8), .env (.send 9)] ++
      List.replicate 15 .move)
    ∃ c : Cycle UInt8,
      (Pipeline.filled m.stage m.mem)[1]? = some (cycleSlot c) ∧ c.events[0]? = some 9 := by
  intro m
  have hstage : (pairsRun [.env (.send 7), .env (.send 8), .env (.send 9)]).stage = 3 * 0 := rfl
  have hbegin : calls ((pairsRun [.env (.send 7), .env (.send 8), .env (.send 9)]).ofStage
      (3 * 0)) = [] := rfl
  have hx : (pairsRun [.env (.send 7), .env (.send 8),
      .env (.send 9)]).world.inbound.queue[2]? = some 9 := rfl
  have hlate : m.stage = 4 := rfl
  refine (exact_delivery_cycle _ _ _ _ _ _ _ _ hstage hbegin hx).1 (List.replicate 15 .move) ?_
  rw [← pairsRun, hlate]
  decide

end Msrs
