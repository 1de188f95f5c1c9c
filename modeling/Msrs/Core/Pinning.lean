import Msrs.Core.Rt
import Mathlib.Data.Set.Insert

/-!
# Pinning on Linux

What `RtConfig::apply` does to the thread's affinity mask. `Linux` is what is relied on of
`core_affinity` and `thread_priority` there: the core ids are those of the mask, and pinning
replaces the mask by one core. So each listed core undoes the pin to the one before, and after an
`apply` that returns Ok the mask is the last core of the list (`mask_of_ok`); applied again, the
other cores are missing. The configuration takes effect exactly when its list names one core
(`takes_effect_iff`).
-/

namespace Msrs

open Interleave Prog

variable {W : Type}

/-- The answer to a call is a success. -/
def RtOp.Succeeded : (o : RtOp) → o.Res → Prop
  | .getCoreIds, _ => True
  | .setForCurrent _, pinned => pinned = true
  | .priorityValue _, r => r = .ok ()
  | .setThreadPriority _, r => r = .ok ()

/-- What is relied on of a platform with affinity masks. -/
structure Linux (answer : W → (o : RtOp) → o.Res × W) (mask : W → Set Nat) : Prop where
  /-- The core ids are those in the current mask. -/
  coreIds : ∀ w, ∃ ids, (answer w .getCoreIds).1 = some ids ∧
    ∀ n, n ∈ ids.map CoreId.id ↔ n ∈ mask w
  /-- A successful pin replaces the mask by the core. -/
  pinned : ∀ w core, (answer w (.setForCurrent core)).1 = true →
    mask (answer w (.setForCurrent core)).2 = {core.id}
  /-- No other call changes the mask. -/
  unchanged : ∀ w o, (∀ core, o ≠ .setForCurrent core) → mask (answer w o).2 = mask w
  /-- A call that succeeded once succeeds again. -/
  again : ∀ w o cs w', o.Succeeded (answer w o).1 → Answers answer (answer w o).2 cs w' →
    o.Succeeded (answer w' o).1

variable {answer : W → (o : RtOp) → o.Res × W} {mask : W → Set Nat} {target : TargetOs}
  {cfg : RtConfig} {w w' : W}

theorem Linux.succeeds_again (h : Linux answer mask) {cs cs' : List RtCall} {w'' : W}
    (hrun : Answers answer w cs w') (hrun' : Answers answer w' cs' w'') :
    ∀ (o : RtOp) (r r' : o.Res), ⟨o, r⟩ ∈ cs → o.Succeeded r → ⟨o, r'⟩ ∈ cs' → o.Succeeded r' := by
  intro o r r' hmem hok hmem'
  obtain ⟨v, pre, post, -, hr, hpost⟩ := hrun.of_mem hmem
  obtain ⟨v', pre', post', hpre', hr', -⟩ := hrun'.of_mem hmem'
  obtain rfl : r = (answer v o).1 := hr
  obtain rfl : r' = (answer v' o).1 := hr'
  exact h.again v o (post ++ pre') v' hok ((answers_append _ _ _ _).mpr ⟨w', hpost, hpre'⟩)

theorem Linux.mask_unchanged (h : Linux answer mask) {cs : List RtCall}
    (hrun : Answers answer w cs w') (hcs : ∀ c ∈ cs, ∀ core, c.1 ≠ .setForCurrent core) :
    mask w' = mask w := by
  induction cs generalizing w with
  | nil => rw [show w' = w from hrun]
  | cons c cs ih =>
    obtain ⟨hc, hcs⟩ := List.forall_mem_cons.mp hcs
    exact (ih hrun.2 hcs).trans (h.unchanged w c.1 hc)

theorem Linux.mem_ids (h : Linux answer mask) {ids : List CoreId}
    (hids : (answer w .getCoreIds).1 = some ids) (n : Nat) :
    n ∈ ids.map CoreId.id ↔ n ∈ mask w := by
  obtain ⟨ids', hids', hmem⟩ := h.coreIds w
  obtain rfl : ids' = ids := Option.some.inj (hids'.symm.trans hids)
  exact hmem n

/-! ## An `apply` that returns Ok -/

/-- Without a failure every listed core has been pinned to, in order. -/
theorem pins_of_ok {ids : List CoreId} {affinity : List Nat} {ts : List Attempt}
    (hts : List.Forall₂ (TriesCore ids) affinity ts) (hok : ∀ a ∈ ts, a.failure = none) :
    ts = affinity.map fun n => .pin { id := n } true := by
  induction hts with
  | nil => rfl
  | cons ht _ ih =>
    obtain ⟨hfirst, hrest⟩ := List.forall_mem_cons.mp hok
    rw [ih hrest, List.map_cons]
    cases ht with
    | missing h => simp [Attempt.failure] at hfirst
    | pin core hmem hid pinned =>
      subst hid
      cases pinned with
      | false => simp [Attempt.failure] at hfirst
      | true => rfl

/-- The attempts of an `apply` with a list of cores, of which none failed. -/
theorem tries_of_ok {attempts : List Attempt} (htries : cfg.Tries target attempts)
    (hok : ∀ a ∈ attempts, a.failure = none) (hne : cfg.affinity ≠ []) :
    ∃ ids sched, attempts =
        (.coreIds (some ids) :: cfg.affinity.map fun n => .pin { id := n } true) ++ sched ∧
      TriesScheduler target cfg.scheduler sched := by
  obtain ⟨cores, sched, rfl, hcores, hsched⟩ := htries
  obtain ⟨hok, -⟩ := List.forall_mem_append.mp hok
  generalize haffinity : cfg.affinity = affinity at hcores hne
  cases hcores with
  | nothing => exact absurd rfl hne
  | unavailable _ => simp [Attempt.failure] at hok
  | cores _ ids hts =>
    refine ⟨ids, sched, ?_, hsched⟩
    rw [pins_of_ok hts (List.forall_mem_cons.mp hok).2]

/-- Each pin undoes the one before: the mask after them is the last core. -/
theorem Linux.mask_pins (h : Linux answer mask) (n : Nat) (affinity : List Nat)
    (hrun : Answers answer w
      (((n :: affinity).map fun n => Attempt.pin { id := n } true).flatMap Attempt.calls) w') :
    mask w' = {(n :: affinity).getLast (List.cons_ne_nil _ _)} := by
  induction affinity generalizing n w with
  | nil =>
    obtain ⟨hpinned, hend⟩ := hrun
    rw [show w' = _ from hend]
    exact h.pinned w { id := n } hpinned.symm
  | cons n' affinity ih =>
    rw [List.getLast_cons (List.cons_ne_nil _ _)]
    exact ih n' hrun.2

theorem sched_pins_nothing {scheduler : SchedPolicy} {sched : List Attempt}
    (h : TriesScheduler target scheduler sched) :
    ∀ c ∈ sched.flatMap Attempt.calls, ∀ core, c.1 ≠ .setForCurrent core := by
  cases h <;> simp [Attempt.calls]

theorem mask_of_ok (h : Linux answer mask) (hne : cfg.affinity ≠ [])
    (hok : (exec answer (cfg.apply target) w).1 = .ok ()) :
    mask (exec answer (cfg.apply target) w).2 = {cfg.affinity.getLast hne} := by
  obtain ⟨cs, hyields, hrun⟩ := exec_yields answer (cfg.apply target) w
  rw [hok] at hyields
  obtain ⟨attempts, htries, rfl, hr⟩ := (RtConfig.apply_yields _ _ _ _).mp hyields
  obtain ⟨ids, sched, rfl, hsched⟩ := tries_of_ok htries (result_eq_ok.mp hr.symm) hne
  rw [List.flatMap_append, answers_append] at hrun
  obtain ⟨v, hcores, hrest⟩ := hrun
  rw [h.mask_unchanged hrest (sched_pins_nothing hsched)]
  obtain ⟨n, affinity, hcons⟩ := List.exists_cons_of_ne_nil hne
  simp only [hcons] at hcores ⊢
  exact h.mask_pins n affinity hcores.2

/-! ## Applied again -/

theorem mem_pin_calls {affinity : List Nat} {core : CoreId} (hcore : core.id ∈ affinity) :
    (⟨.setForCurrent core, true⟩ : RtCall) ∈
      (affinity.map fun n => Attempt.pin { id := n } true).flatMap Attempt.calls := by
  rw [List.flatMap_map]
  exact List.mem_flatMap.mpr ⟨core.id, hcore, List.mem_singleton.mpr rfl⟩

theorem pins_again {ids : List CoreId} {affinity : List Nat} {ts : List Attempt}
    (hts : List.Forall₂ (TriesCore ids) affinity ts)
    (hids : ∀ n ∈ affinity, n ∈ ids.map CoreId.id)
    (hpin : ∀ core pinned, core.id ∈ affinity →
      ⟨.setForCurrent core, pinned⟩ ∈ ts.flatMap Attempt.calls → pinned = true) :
    ∀ a ∈ ts, a.failure = none := by
  induction hts with
  | nil => simp
  | @cons n a affinity ts ht _ ih =>
    obtain ⟨hid, hids⟩ := List.forall_mem_cons.mp hids
    refine List.forall_mem_cons.mpr ⟨?_, ih hids fun core pinned hcore hmem => ?_⟩
    · cases ht with
      | missing h =>
        obtain ⟨core, hcore, hn⟩ := List.mem_map.mp hid
        exact absurd hn (h core hcore)
      | pin core hmem hn pinned =>
        have hpinned := hpin core pinned (by simp [hn]) (by simp [Attempt.calls])
        rw [hpinned]
        rfl
    · refine hpin core pinned (List.mem_cons_of_mem _ hcore) ?_
      rw [List.flatMap_cons]
      exact List.mem_append_right _ hmem

/-- Cores that are all in the mask, and that all let themselves be pinned to, are pinned to. -/
theorem Linux.cores_again (h : Linux answer mask) {affinity : List Nat} {cores : List Attempt}
    (hcores : TriesCores affinity cores)
    (hrun : Answers answer w (cores.flatMap Attempt.calls) w')
    (hmask : ∀ n ∈ affinity, n ∈ mask w)
    (hpin : ∀ core pinned, core.id ∈ affinity →
      ⟨.setForCurrent core, pinned⟩ ∈ cores.flatMap Attempt.calls → pinned = true) :
    ∀ a ∈ cores, a.failure = none := by
  cases hcores with
  | nothing => simp
  | unavailable _ =>
    obtain ⟨ids, hids, -⟩ := h.coreIds w
    cases hids.symm.trans hrun.1.symm
  | cores _ ids hts =>
    refine List.forall_mem_cons.mpr ⟨rfl, pins_again hts ?_ fun core pinned hcore hmem => ?_⟩
    · intro n hn
      exact (h.mem_ids hrun.1.symm n).mpr (hmask n hn)
    · refine hpin core pinned hcore ?_
      rw [List.flatMap_cons]
      exact List.mem_append_right _ hmem

theorem sched_again {scheduler : SchedPolicy} {sched sched' : List Attempt}
    (hsched : TriesScheduler target scheduler sched) (hok : ∀ a ∈ sched, a.failure = none)
    (hsched' : TriesScheduler target scheduler sched')
    (hagain : ∀ (o : RtOp) (r r' : o.Res), ⟨o, r⟩ ∈ sched.flatMap Attempt.calls →
      o.Succeeded r → ⟨o, r'⟩ ∈ sched'.flatMap Attempt.calls → o.Succeeded r') :
    ∀ a ∈ sched', a.failure = none := by
  cases hsched with
  | normal =>
    cases hsched'
    simp
  | badPriority prio e => simp [Attempt.failure] at hok
  | unsupported prio => simp [Attempt.failure] at hok
  | fifo prio r =>
    obtain rfl : r = .ok () := by
      cases r with
      | ok _ => rfl
      | error e => simp [Attempt.failure] at hok
    have hvalue (r' : Except String Unit) :=
      hagain (.priorityValue prio) (.ok ()) r' (by simp [Attempt.calls]) rfl
    have hset (r' : Except String Unit) :=
      hagain (.setThreadPriority prio) (.ok ()) r' (by simp [Attempt.calls]) rfl
    cases hsched' with
    | badPriority _ e =>
      cases (show Except.error e = Except.ok () from hvalue (.error e) (by simp [Attempt.calls]))
    | fifo _ r' =>
      obtain rfl : r' = .ok () := hset r' (by simp [Attempt.calls])
      simp [Attempt.failure]

theorem reapply_ok (h : Linux answer mask) (hne : cfg.affinity ≠ [])
    (hone : ∀ a ∈ cfg.affinity, ∀ b ∈ cfg.affinity, a = b)
    (hok : (exec answer (cfg.apply target) w).1 = .ok ()) :
    (exec answer (cfg.apply target) (exec answer (cfg.apply target) w).2).1 = .ok () := by
  have hmask := mask_of_ok h hne hok
  obtain ⟨cs, hyields, hrun⟩ := exec_yields answer (cfg.apply target) w
  rw [hok] at hyields
  generalize (exec answer (cfg.apply target) w).2 = w' at hmask hrun
  obtain ⟨attempts, htries, rfl, hr⟩ := (RtConfig.apply_yields _ _ _ _).mp hyields
  have hnone := result_eq_ok.mp hr.symm
  obtain ⟨ids, sched, rfl, hsched⟩ := tries_of_ok htries hnone hne
  obtain ⟨cs', hyields', hrun'⟩ := exec_yields answer (cfg.apply target) w'
  obtain ⟨attempts', htries', rfl, hr'⟩ := (RtConfig.apply_yields _ _ _ _).mp hyields'
  obtain ⟨cores', sched', rfl, hcores', hsched'⟩ := htries'
  have hagain := h.succeeds_again hrun hrun'
  rw [List.flatMap_append, List.flatMap_append] at hagain
  rw [List.flatMap_append, answers_append] at hrun'
  obtain ⟨v, hpins, -⟩ := hrun'
  rw [hr']
  refine result_eq_ok.mpr (List.forall_mem_append.mpr ⟨?_, ?_⟩)
  · -- The mask is now the one core of the list, and it has been pinned to before.
    refine h.cores_again hcores' hpins ?_ fun core pinned hcore hmem => ?_
    · intro n hn
      rw [hmask, hone n hn _ (List.getLast_mem hne)]
      rfl
    · have hbefore : (⟨.setForCurrent core, true⟩ : RtCall) ∈ (Attempt.coreIds (some ids) ::
          cfg.affinity.map fun n => .pin { id := n } true).flatMap Attempt.calls := by
        rw [List.flatMap_cons]
        exact List.mem_append_right _ (mem_pin_calls hcore)
      exact hagain (.setForCurrent core) true pinned (List.mem_append_left _ hbefore) rfl
        (List.mem_append_left _ hmem)
  · refine sched_again hsched (List.forall_mem_append.mp hnone).2 hsched' ?_
    intro o r r' hmem hsucc hmem'
    exact hagain o r r' (List.mem_append_right _ hmem) hsucc (List.mem_append_right _ hmem')

/-! ## Whether pinning takes effect -/

/-- The last of a list is all there is in it if and only if its elements are all the same. -/
theorem getLast_eq_mem_iff {l : List Nat} (hne : l ≠ []) :
    ({l.getLast hne} : Set Nat) = {n | n ∈ l} ↔ ∀ a ∈ l, ∀ b ∈ l, a = b := by
  refine ⟨fun h a ha b hb => ?_, fun hone => ?_⟩
  · have hlast : ∀ n ∈ l, n = l.getLast hne := by
      intro n hn
      have hmem : n ∈ {n | n ∈ l} := hn
      rwa [← h] at hmem
    rw [hlast a ha, hlast b hb]
  · ext n
    refine ⟨fun hn => ?_, fun hn => hone n hn _ (List.getLast_mem hne)⟩
    rw [show n = l.getLast hne from hn]
    exact List.getLast_mem hne

/-- **Pinning.** On Linux, an `apply` of a list of cores that returns Ok leaves exactly the listed
cores in the mask, and applied again returns Ok and leaves the mask as it is, if and only if the
list names one core. -/
theorem takes_effect_iff (hlinux : Linux answer mask) (hne : cfg.affinity ≠ [])
    (hok : (exec answer (cfg.apply target) w).1 = .ok ()) :
    let w' := (exec answer (cfg.apply target) w).2
    (mask w' = {n | n ∈ cfg.affinity} ∧ (exec answer (cfg.apply target) w').1 = .ok () ∧
        mask (exec answer (cfg.apply target) w').2 = mask w') ↔
      ∀ a ∈ cfg.affinity, ∀ b ∈ cfg.affinity, a = b := by
  intro w'
  have hmask : mask w' = {cfg.affinity.getLast hne} := mask_of_ok hlinux hne hok
  refine ⟨fun h => (getLast_eq_mem_iff hne).mp (hmask.symm.trans h.1), fun hone => ?_⟩
  have hagain : (exec answer (cfg.apply target) w').1 = .ok () := reapply_ok hlinux hne hone hok
  refine ⟨hmask.trans ((getLast_eq_mem_iff hne).mpr hone), hagain, ?_⟩
  rw [hmask]
  exact mask_of_ok hlinux hne hagain

/-! ## A thread with its mask -/

/-- A platform that is nothing but the mask of the thread: every call is permitted. -/
def threadMask (mask : List Nat) : (o : RtOp) → o.Res × List Nat
  | .getCoreIds => (some (mask.map CoreId.mk), mask)
  | .setForCurrent core => (true, [core.id])
  | .priorityValue _ => (.ok (), mask)
  | .setThreadPriority _ => (.ok (), mask)

theorem linux_threadMask : Linux threadMask fun mask => {n | n ∈ mask} where
  coreIds mask := ⟨_, rfl, fun n => by simp⟩
  pinned mask core _ := by
    ext n
    simp [threadMask]
  unchanged mask o ho := by
    cases o with
    | setForCurrent core => exact absurd rfl (ho core)
    | getCoreIds | priorityValue prio | setThreadPriority prio => rfl
  again mask o cs mask' _ _ := by
    cases o with
    | getCoreIds => trivial
    | setForCurrent core | priorityValue prio | setThreadPriority prio => rfl

/-- One core, at a real-time priority: the pin takes effect, and holds when applied again. -/
theorem takes_effect_one :
    let cfg : RtConfig := { scheduler := .fifo 50, affinity := [2] }
    let mask := (exec threadMask (cfg.apply .linux) [0, 1, 2]).2
    (exec threadMask (cfg.apply .linux) mask).1 = .ok () := by
  intro cfg mask
  exact ((takes_effect_iff linux_threadMask (by decide) rfl).mpr (by decide)).2.1

/-- Two cores: `apply` returns Ok with the mask at the second one alone, and applied again it does
not find the first. -/
theorem takes_effect_two :
    let cfg : RtConfig := { scheduler := .normal, affinity := [0, 1] }
    let mask := (exec threadMask (cfg.apply .linux) [0, 1]).2
    Linux threadMask (fun mask => {n | n ∈ mask}) ∧
      (exec threadMask (cfg.apply .linux) [0, 1]).1 = .ok () ∧
      ¬ {n | n ∈ mask} = {n | n ∈ cfg.affinity} ∧
      (exec threadMask (cfg.apply .linux) mask).1 = .error "core 0 not available" := by
  intro cfg mask
  refine ⟨linux_threadMask, rfl, ?_, rfl⟩
  intro h
  have hmem : 0 ∈ {n | n ∈ mask} := by
    rw [h]
    exact List.mem_cons_self
  exact absurd hmem (by decide)

end Msrs
