import Msrs.Runtime.Timed
import Msrs.Lib.Stages

/-!
# Between two drains

Which calls filled which slot: in any run of a pipeline the calls of stage `3 * i` are those of
the source run that filled the slot of iteration `i`, and no other stage receives
(`Pipeline.stages`). For the timed pipeline this places every drain in the history, and
`nothing_between` reads off what a row of empty cycles means: from the last receive of the drain
before them to their last first receive the inbound channel has accepted nothing.
-/

namespace Msrs

open Interleave Fifo

variable {T U σ A B : Type}

namespace Pipeline

variable {P : Pipeline T U σ A B} {c : Contract T U σ A B} {pick : Nat → Nat} {k : Nat}
  {rt rt' : Runtime σ (Slots A B)} {ds : List (IoCall T U)}

/-- The calls `f k` of each finished stage `k`, against the slots the source has filled. -/
structure Stages (P : Pipeline T U σ A B) (c : Contract T U σ A B) (k : Nat)
    (rt : Runtime σ (Slots A B)) (f : Nat → List (IoCall T U)) : Prop where
  filled : ∀ a ∈ filled k rt, c.Filled a
  /-- Each slot was filled by a run of the source, in the source's stage. -/
  source : ∀ i a, (Pipeline.filled k rt)[i]? = some a →
    ∃ a₀ r, (P.source a₀).Yields (f (3 * i)) (a, r)
  /-- Only the source receives. -/
  quiet : ∀ i, i % 3 ≠ 0 → received (f i) = []

theorem Stages.idle {f : Nat → List (IoCall T U)} (h : Stages P c k rt f) (hk : k % 3 ≠ 0)
    (hf : Pipeline.filled (k + 1) rt' = Pipeline.filled k rt) (hrecv : received ds = []) :
    Stages P c (k + 1) rt' (Function.update f k ds) := by
  refine ⟨?_, ?_, ?_⟩
  · rw [hf]
    exact h.filled
  · intro i a ha
    rw [hf] at ha
    rw [Function.update_of_ne (by omega)]
    exact h.source i a ha
  · intro i hi
    by_cases heq : i = k
    · rw [heq, Function.update_self]
      exact hrecv
    · rw [Function.update_of_ne heq]
      exact h.quiet i hi

theorem stages_step (hP : P.Meets c) {id : UInt64} {f : Nat → List (IoCall T U)}
    (hlog : Dag.Logged P.dag id k rt) (h : Stages P c k rt f)
    (hstage : (P.dag.stage pick k rt).Yields ds rt') :
    Stages P c (k + 1) rt' (Function.update f k ds) := by
  rcases yields_stage hstage with ⟨h0, a, r, hsrc, rfl⟩ | ⟨h1, s', b, r, htr, rfl⟩ |
    ⟨h2, r, hsink, rfl⟩
  · obtain ⟨hf, -, -⟩ := views_source h0 rt.state (a, (rt.ring (pick (k / 3))).2) r
    have hlength := length_filled hlog
    refine ⟨?_, ?_, ?_⟩
    · rw [hf]
      exact List.forall_mem_append.mpr ⟨h.filled, by simpa using (hP.source hsrc).1⟩
    -- The slot filled now is the one of the stage; the others were filled in earlier stages.
    · intro i a' ha
      rw [hf] at ha
      rcases Mealy.getElem?_snoc.mp ha with ha | ⟨hlast, rfl⟩
      · have hlt := (List.getElem?_eq_some_iff.mp ha).1
        rw [Function.update_of_ne (by omega)]
        exact h.source i a' ha
      · have hk : 3 * i = k := by omega
        rw [hk, Function.update_self]
        exact ⟨_, r, hsrc⟩
    · intro i hi
      rw [Function.update_of_ne (by omega)]
      exact h.quiet i hi
  · have hf : Pipeline.filled (k + 1) (rt.store (s', (rt.msgs.1, b), r)) =
        Pipeline.filled k rt := (views_transform h1 s' b r).1
    have hin : c.Filled rt.msgs.1 := h.filled _ (mem_filled (by omega))
    exact h.idle (by omega) hf (hP.transform hin htr).2.2.1
  · obtain ⟨hf, -, -, -⟩ := views_sink h2 r (pick (k / 3))
    exact h.idle (by omega) hf (hP.sink hsink).1

theorem stages (hP : P.Meets c) (pick : Nat → Nat) (s : σ) (ring : Nat → Slots A B)
    (id : UInt64) (w : Bridge T U) (sched : Schedule T U) :
    let m := P.dag.run pick (.start s ring id) w sched
    ∃ f, Stages P c m.stage m.mem f ∧ ∀ i, i ≠ m.stage → calls (m.ofStage i) = f i := by
  intro m
  have hstart : Stages P c 0 (.start s ring id) fun _ => [] := by
    refine ⟨?_, ?_, fun _ _ => rfl⟩
    · intro a ha
      simp [Pipeline.filled, Runtime.start] at ha
    · intro i a ha
      simp [Pipeline.filled, Runtime.start] at ha
  have hlog : Dag.Logged P.dag id 0 (.start s ring id) := Dag.logged_run P.dag pick s ring id w []
  obtain ⟨f, ⟨-, hstages⟩, hcalls⟩ := Shared.run_rule_stages (bridge T U) (P.dag.stage pick)
    (J := fun k rt f => Dag.Logged P.dag id k rt ∧ Stages P c k rt f) (w := w) ⟨hlog, hstart⟩
    (fun k rt f ds rt' h hstage => ⟨h.1.step hstage, stages_step hP h.1 h.2 hstage⟩) sched
  exact ⟨f, hstages, hcalls⟩

theorem filled_of_handed {i : Nat} {a : CuMsg A} (h : (handed k rt)[i]? = some a) :
    (filled k rt)[i]? = some a := by
  unfold handed at h
  unfold filled
  by_cases h2 : k % 3 = 2
  · rw [if_pos h2] at h
    rwa [if_neg (by omega)]
  · rw [if_neg h2, List.append_nil] at h
    rw [List.getElem?_append_left (List.getElem?_eq_some_iff.mp h).1]
    exact h

end Pipeline

/-! ## Drains of the timed pipeline -/

/-- A receive attempt. -/
abbrev Event.attempt (r : Except TryRecvError T) : Event T U := .call ⟨.tryRecv, r⟩

/-- A history around the part between two drains: it is cut after the last receive attempt of
iteration `j`, which returned `last`, and before the first one of iteration `k`, which returned
`first`. -/
structure Between (hist : List (Nat × Event T U)) (j k : Nat) (pre : List (Nat × Event T U))
    (last : Except TryRecvError T) (mid : List (Nat × Event T U)) (first : Except TryRecvError T)
    (post : List (Nat × Event T U)) : Prop where
  cut : hist = pre ++ [(3 * j, .attempt last)] ++ mid ++ (3 * k, .attempt first) :: post
  is_last : ∀ r, (3 * j, .attempt r) ∉ mid ++ post
  is_first : ∀ r, (3 * k, .attempt r) ∉ pre ++ mid

/-- Where the calls of the two stages put the cut, and which calls the part between holds. -/
theorem exists_between {hist : List (Nat × Event T U)}
    (hs : hist.Pairwise fun x y => x.1 ≤ y.1) {j k : Nat} (hjk : j < k)
    {cs rest rest' : List (IoCall T U)} {last first : Except TryRecvError T}
    (hj : calls (Shared.labelsOf hist (3 * j)) = cs ++ ⟨.tryRecv, last⟩ :: rest)
    (hrest : ∀ r, ⟨.tryRecv, r⟩ ∉ rest)
    (hk : calls (Shared.labelsOf hist (3 * k)) = ⟨.tryRecv, first⟩ :: rest') :
    ∃ pre mid post, Between hist j k pre last mid first post ∧
      ∀ c ∈ calls (mid.map Prod.snd), c ∈ rest ∨
        ∃ i, 3 * j < i ∧ i < 3 * k ∧ c ∈ calls (Shared.labelsOf hist i) := by
  obtain ⟨pre, tail, rfl, -, hrest'⟩ := cut_of_calls hj
  obtain ⟨-, hsorted, hle⟩ := List.pairwise_append.mp hs
  obtain ⟨hfrom, htail⟩ := List.pairwise_cons.mp hsorted
  have hpre (x) (hx : x ∈ pre) : x.1 ≤ 3 * j := hle x hx _ List.mem_cons_self
  -- Stage `3 * k` is in what comes after the last attempt of iteration `j`.
  have hearlier : Shared.labelsOf (pre ++ [(3 * j, Event.attempt last)]) (3 * k) = [] := by
    apply Shared.labelsOf_eq_nil
    intro x hx
    rcases List.mem_append.mp hx with hx | hx
    · have hxj := hpre x hx
      omega
    · rw [List.mem_singleton.mp hx]
      omega
  have htailk : calls (Shared.labelsOf tail (3 * k)) = [] ++ ⟨.tryRecv, first⟩ :: rest' := by
    rw [List.append_cons, Shared.labelsOf_append, hearlier] at hk
    exact hk
  obtain ⟨mid, post, rfl, hmidk, -⟩ := cut_of_calls htailk
  obtain ⟨-, -, hupto⟩ := List.pairwise_append.mp htail
  have hof {x : Nat × Event T U} {h : List (Nat × Event T U)} {c : IoCall T U}
      (hx : x ∈ h) (hxc : x.2 = .call c) : c ∈ calls (Shared.labelsOf h x.1) :=
    mem_calls.mpr (hxc ▸ Shared.mem_labelsOf hx)
  refine ⟨pre, mid, post, ⟨by simp, ?_, ?_⟩, ?_⟩
  · intro r hr
    have hmem : (3 * j, Event.attempt r) ∈ mid ++ (3 * k, Event.attempt first) :: post := by
      rcases List.mem_append.mp hr with hr | hr
      · exact List.mem_append_left _ hr
      · exact List.mem_append_right _ (List.mem_cons_of_mem _ hr)
    exact hrest r (hrest' ▸ hof hmem rfl)
  · intro r hr
    rcases List.mem_append.mp hr with hr | hr
    · have hkj := hpre _ hr
      omega
    · exact absurd (hof hr rfl) (by simp [hmidk])
  · intro c hc
    obtain ⟨x, hx, hxc⟩ := List.mem_map.mp (mem_calls.mp hc)
    have hlo : 3 * j ≤ x.1 := hfrom x (List.mem_append_left _ hx)
    have hhi : x.1 ≤ 3 * k := hupto x hx _ List.mem_cons_self
    have hmem : x ∈ mid ++ (3 * k, Event.attempt first) :: post := List.mem_append_left _ hx
    by_cases hxj : x.1 = 3 * j
    · exact Or.inl (hrest' ▸ hxj ▸ hof hmem hxc)
    by_cases hxk : x.1 = 3 * k
    · have hnone := hof hx hxc
      rw [hxk, hmidk] at hnone
      exact absurd hnone List.not_mem_nil
    · have hin : x ∈
          pre ++ (3 * j, Event.attempt last) :: (mid ++ (3 * k, Event.attempt first) :: post) :=
        List.mem_append_right _ (List.mem_cons_of_mem _ hmem)
      exact Or.inr ⟨x.1, by omega, by omega, hof hin hxc⟩

/-- Nothing was accepted between the drains, and the first of them left nothing behind, when
nothing was received between them and the second found nothing. -/
theorem Between.silent {hist pre mid post : List (Nat × Event T U)} {j k : Nat}
    {last : Except TryRecvError T} {e : TryRecvError} {w w' : Bridge T U}
    (h : Between hist j k pre last mid (.error e) post)
    (hlegal : (bridge T U).Legal w (hist.map Prod.snd) w')
    (hmid : received (calls (mid.map Prod.snd)) = []) :
    accepted (mid.map Prod.snd) = [] ∧
      ∀ v, (bridge T U).Legal w
        ((pre ++ [(3 * j, Event.attempt last)]).map Prod.snd) v →
          v.inbound.queue = [] := by
  rw [h.cut, List.map_append, List.map_append] at hlegal
  obtain ⟨u, hu, htail⟩ := ((bridge T U).legal_append _ _ _ _).mp hlegal
  obtain ⟨v, hv, hgap⟩ := ((bridge T U).legal_append _ _ _ _).mp hu
  have hempty : u.inbound.queue = [] := queue_of_failed htail
  have hlaw := queue_law hgap
  rw [hmid, hempty, List.append_nil] at hlaw
  obtain ⟨hqueue, hacc⟩ := List.append_eq_nil_iff.mp hlaw
  refine ⟨hacc, ?_⟩
  intro v' hv'
  have hsame := (queue_law hv').symm.trans (queue_law hv)
  rw [hqueue] at hsame
  exact List.append_cancel_left hsame

section Timed

variable (task : CycleIngressTask) (M : FsmSpec σ (Cycle T) U) (pick : Nat → Nat)
  (ring : Nat → Slots (Cycle T) (Batch U)) (id : UInt64) (capacity : Capacity) (clock : Nat)
  (sched : Schedule T U)

/-- The cycle handed over in iteration `i` was drained by the calls of stage `3 * i`. -/
theorem drain_of_handed {i : Nat} {c : Cycle T} :
    let m := timedRun task M pick ring id capacity clock sched
    (Pipeline.handed m.stage m.mem)[i]? = some (cycleSlot c) →
      ∃ drain, Drained task.maxBatch drain c.events ∧
        calls (m.ofStage (3 * i)) = drain ++ [⟨.len, c.pending⟩, ⟨.now, c.nowNs⟩] := by
  intro m hc
  obtain ⟨f, hstages, hcalls⟩ : ∃ f, Pipeline.Stages (timed task M) (timedContract task M)
      m.stage m.mem f ∧ ∀ i, i ≠ m.stage → calls (m.ofStage i) = f i :=
    Pipeline.stages (timed_meets task M) pick _ ring id _ sched
  have hfilled := Pipeline.filled_of_handed hc
  have hlt := (List.getElem?_eq_some_iff.mp hfilled).1
  have hlog : Dag.Logged (timed task M).dag id m.stage m.mem :=
    Dag.logged_run (timed task M).dag pick (FsmBatchTask.default M) ring id _ sched
  have hlength := Pipeline.length_filled hlog
  obtain ⟨a₀, r, hsrc⟩ := hstages.source i _ hfilled
  obtain ⟨events, drain, pending, now, hd, hcs, -, hslot⟩ :=
    CycleIngressTask.yields_process hsrc
  have hpayload := congrArg CuMsg.payload hslot
  obtain rfl : c = { nowNs := now, events, pending } := Option.some.inj hpayload
  exact ⟨drain, hd, (hcalls _ (by omega)).trans hcs⟩

theorem quiet_stages :
    let m := timedRun task M pick ring id capacity clock sched
    ∀ i, i % 3 ≠ 0 → i ≠ m.stage → received (calls (m.ofStage i)) = [] := by
  intro m i hi hne
  obtain ⟨f, hstages, hcalls⟩ : ∃ f, Pipeline.Stages (timed task M) (timedContract task M)
      m.stage m.mem f ∧ ∀ i, i ≠ m.stage → calls (m.ofStage i) = f i :=
    Pipeline.stages (timed_meets task M) pick _ ring id _ sched
  rw [hcalls i hne]
  exact hstages.quiet i hi

theorem cycle_of_handed {i : Nat} :
    let m := timedRun task M pick ring id capacity clock sched
    i < (Pipeline.handed m.stage m.mem).length → ∃ c : Cycle T,
      (Pipeline.handed m.stage m.mem)[i]? = some (cycleSlot c) := by
  intro m hlt
  obtain ⟨c, -, hc⟩ := (timed_refines task M pick ring id capacity clock sched).filled _
    (List.getElem_mem hlt)
  exact ⟨c, (List.getElem?_eq_getElem hlt).trans (congrArg some hc)⟩

theorem nothing_received {j k : Nat} :
    let m := timedRun task M pick ring id capacity clock sched
    k < (Pipeline.handed m.stage m.mem).length →
      (∀ i c, j < i → i < k → (Pipeline.handed m.stage m.mem)[i]? = some (cycleSlot c) →
        c.events = []) →
      ∀ i, 3 * j < i → i < 3 * k → received (calls (m.ofStage i)) = [] := by
  intro m hk hempty i hlo hhi
  by_cases hi : i % 3 = 0
  · obtain ⟨i, rfl⟩ := Nat.dvd_of_mod_eq_zero hi
    have hlt : i < (Pipeline.handed m.stage m.mem).length := by omega
    obtain ⟨c, hc⟩ : ∃ c : Cycle T, (Pipeline.handed m.stage m.mem)[i]? = some (cycleSlot c) :=
      cycle_of_handed task M pick ring id capacity clock sched hlt
    obtain ⟨ds, hds, hcalls⟩ := drain_of_handed task M pick ring id capacity clock sched hc
    rw [hempty i c (by omega) (by omega) hc] at hds
    change calls (m.ofStage (3 * i)) = _ at hcalls
    rw [hcalls, received_append, hds.received]
    rfl
  · have hstepped : (Pipeline.handed m.stage m.mem).length = (m.stage + 1) / 3 :=
      (timed_refines task M pick ring id capacity clock sched).stepped
    have hne : i ≠ m.stage := by omega
    exact quiet_stages task M pick ring id capacity clock sched i hi hne

/-- **Nothing arrived.** After a drain that took something, and up to the drain of a later
iteration `k` with only empty cycles in between: the channel accepted nothing between the last
receive of the one and the first receive of the other, which failed, and the queue was empty at
the moment after that last receive. -/
theorem nothing_between {j k : Nat} {cj : Cycle T} (hjk : j < k) :
    let m := timedRun task M pick ring id capacity clock sched
    (Pipeline.handed m.stage m.mem)[j]? = some (cycleSlot cj) →
      k < (Pipeline.handed m.stage m.mem).length →
      (∀ i c, j < i → i ≤ k → (Pipeline.handed m.stage m.mem)[i]? = some (cycleSlot c) →
        c.events = []) →
      ∃ pre last mid e post, Between m.hist j k pre last mid (.error e) post ∧
        accepted (mid.map Prod.snd) = [] ∧
        ∃ n, (timedRun task M pick ring id capacity clock (sched.take n)).hist =
            pre ++ [(3 * j, .attempt last)] ∧
          (timedRun task M pick ring id capacity clock (sched.take n)).world.inbound.queue =
            [] := by
  intro m hcj hk hquiet
  -- The calls of the two drains.
  obtain ⟨ck, hck⟩ := cycle_of_handed task M pick ring id capacity clock sched hk
  obtain ⟨drain, hd, hcallsj⟩ := drain_of_handed task M pick ring id capacity clock sched hcj
  obtain ⟨drain', hd', hcallsk⟩ := drain_of_handed task M pick ring id capacity clock sched hck
  obtain ⟨n, hn⟩ := Nat.exists_eq_add_of_lt task.maxBatch_pos
  rw [hn] at hd
  obtain ⟨cs, last, rfl⟩ := hd.last
  rw [hquiet k ck hjk (Nat.le_refl k) hck] at hd'
  obtain ⟨e, rfl⟩ := hd'.failed task.maxBatch_pos
  rw [List.append_assoc] at hcallsj
  obtain ⟨pre, mid, post, hbetween, hmid⟩ := exists_between
    (Shared.hist_sorted (bridge T U) _ _ _ sched) hjk hcallsj (by simp) hcallsk
  have hlegal : (bridge T U).Legal (TransportDriver.spawnWith (Chan.fresh capacity) clock)
      (m.hist.map Prod.snd) m.world := Dag.legal_run (timed task M).dag pick _ _ sched
  -- Between them run only drains of empty cycles, and stages that receive nothing.
  have hreceived : received (calls (mid.map Prod.snd)) = [] := by
    apply List.filterMap_eq_nil_iff.mpr
    intro c hc
    rcases hmid c hc with hc | ⟨i, hlo, hhi, hc⟩
    · have hnone : received ([⟨.len, cj.pending⟩, ⟨.now, cj.nowNs⟩] : List (IoCall T U)) = [] := rfl
      exact List.filterMap_eq_nil_iff.mp hnone c hc
    · have hnone : received (calls (m.ofStage i)) = [] :=
        nothing_received task M pick ring id capacity clock sched hk
          (fun i c hlo hhi => hquiet i c hlo (Nat.le_of_lt hhi)) i hlo hhi
      exact List.filterMap_eq_nil_iff.mp hnone c hc
  obtain ⟨hacc, hpre⟩ := hbetween.silent hlegal hreceived
  obtain ⟨n, hn, hmoment, -⟩ := Dag.exists_moment (timed task M).dag pick _ _ sched
    (hbetween.cut.trans (List.append_assoc _ _ _))
  exact ⟨pre, last, mid, e, post, hbetween, hacc, n, hn, hpre _ hmoment⟩

end Timed

end Msrs
