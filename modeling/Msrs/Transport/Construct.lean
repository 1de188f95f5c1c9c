import Msrs.Transport.Registry
import Msrs.Transport.Tasks

/-!
# Constructing tasks, and failing to

`CycleIngressTask::new` checks its configuration and takes its channel end out of the registry.
A request to the registry can fail in four places: an install on an occupied slot, a take from
an empty one, a configuration that is rejected before the take, and a take with a type other
than the installed one. The first three leave every slot as it was. The last has already
emptied the slot when the types are compared, and the value is dropped: a failed request keeps
the registry exactly when it is not mistyped (`fails_keeps_iff`, and for whole runs
`failed_requests_keep_slots`).
-/

namespace Msrs

variable {R : Types}

/-- A component's configuration, as far as a task can ask it. -/
structure ComponentConfig where
  /-- `get::<u32>(key)`: an error for a value of another type, nothing for a missing key. -/
  getU32 : String → Except CuError (Option UInt32)

/-- Batch cap of `CycleIngressTask` when the configuration sets none. -/
def defaultMaxBatch : Nat := 64

/-- The batch cap a configuration asks for. -/
def maxBatch? (config : Option ComponentConfig) : Except CuError Nat :=
  match config with
  | some cfg =>
    match cfg.getU32 "max_batch" with
    | .ok found => .ok ((found.map UInt32.toNat).getD defaultMaxBatch)
    | .error e => .error e
  | none => .ok defaultMaxBatch

/-- `CycleIngressTask::<T>::new`, where `K` is the task type and `V` is `Receiver<T>`. -/
def CycleIngressTask.new (slots : Registry.Slots R) (K V : R.TypeId)
    (config : Option ComponentConfig) :
    Registry.Slots R × Except CuError (R.Value V × CycleIngressTask) :=
  match maxBatch? config with
  | .error e => (slots, .error e)
  | .ok maxBatch =>
    if h : maxBatch = 0 then
      (slots, .error { msg := "CycleIngressTask max_batch must be > 0" })
    else
      match Registry.take slots K V with
      | (slots, .ok rx) =>
        (slots, .ok (rx, { maxBatch, maxBatch_pos := Nat.pos_of_ne_zero h }))
      | (slots, .error e) => (slots, .error e)

/-! ## Requests -/

/-- What a thread asks of the registry. -/
inductive Request (R : Types) where
  | install (K V : R.TypeId) (value : R.Value V)
  | take (K V : R.TypeId)
  | newCycleIngress (K V : R.TypeId) (config : Option ComponentConfig)

namespace Request

/-- The task type a request is about. -/
def key : Request R → R.TypeId
  | .install K _ _ => K
  | .take K _ => K
  | .newCycleIngress K _ _ => K

/-- The registry after a request. -/
def after (slots : Registry.Slots R) : Request R → Registry.Slots R
  | .install K V value => (Registry.install slots K V value).1
  | .take K V => (Registry.take slots K V).1
  | .newCycleIngress K V config => (CycleIngressTask.new slots K V config).1

/-- The request panics or returns an error. -/
def Fails (slots : Registry.Slots R) : Request R → Prop
  | .install K V value => ∃ text, (Registry.install slots K V value).2 = .error text
  | .take K V => ∃ e, (Registry.take slots K V).2 = .error e
  | .newCycleIngress K V config => ∃ e, (CycleIngressTask.new slots K V config).2 = .error e

/-- The slot of `K` holds a value of a type other than `V`. -/
def HoldsOther (slots : Registry.Slots R) (K V : R.TypeId) : Prop :=
  ∃ boxed, slots K = some boxed ∧ boxed.typeId ≠ V

/-- The request comes to taking a value of another type than the slot holds: a take does, and a
`new` whose configuration is accepted. -/
def Mistyped (slots : Registry.Slots R) : Request R → Prop
  | .install _ _ _ => False
  | .take K V => HoldsOther slots K V
  | .newCycleIngress K V config =>
    (∃ n, maxBatch? config = .ok n ∧ 0 < n) ∧ HoldsOther slots K V

/-- The registry after a run from the start of the process. -/
def run (rs : List (Request R)) : Registry.Slots R := rs.foldl after Registry.Slots.empty

end Request

namespace Registry

/-! ## One request -/

theorem take_fst (slots : Slots R) (K V : R.TypeId) :
    (take slots K V).1 = Function.update slots K none := by
  cases hK : slots K with
  | none => simp [take, Slots.remove, hK]
  | some boxed =>
    simp only [take, Slots.remove, hK]
    cases boxed.downcast V <;> rfl

/-- What a take does, by what the slot holds. -/
theorem take_cases (slots : Slots R) (K V : R.TypeId) :
    (slots K = none ∧ (take slots K V).1 = slots ∧ ∃ e, (take slots K V).2 = .error e) ∨
      (∃ value, slots K = some { typeId := V, value } ∧ (take slots K V).2 = .ok value) ∨
      (Request.HoldsOther slots K V ∧ (take slots K V).1 K = none ∧
        ∃ e, (take slots K V).2 = .error e) := by
  cases hK : slots K with
  | none =>
    have hsame : Function.update slots K none = slots := hK ▸ Function.update_eq_self _ _
    refine Or.inl ⟨rfl, ?_, ?_⟩
    · simp [take, Slots.remove, hK, hsame]
    · simp [take, Slots.remove, hK]
  | some boxed =>
    obtain ⟨W, w⟩ := boxed
    by_cases hW : W = V
    · subst hW
      refine Or.inr (Or.inl ⟨w, rfl, ?_⟩)
      simp [take, Slots.remove, hK, BoxAny.downcast]
    · refine Or.inr (Or.inr ⟨⟨_, hK, hW⟩, ?_, ?_⟩)
      · simp [take, Slots.remove, hK, BoxAny.downcast, hW]
      · simp [take, Slots.remove, hK, BoxAny.downcast, hW]

theorem take_fails {slots : Slots R} {K V : R.TypeId} {e : CuError}
    (h : (take slots K V).2 = .error e) :
    (take slots K V).1 = slots ↔ ¬ Request.HoldsOther slots K V := by
  rcases take_cases slots K V with ⟨hK, hsame, -⟩ | ⟨value, -, hok⟩ | ⟨hother, hnone, -⟩
  · refine ⟨?_, fun _ => hsame⟩
    rintro - ⟨boxed, hboxed, -⟩
    cases hK.symm.trans hboxed
  · cases h.symm.trans hok
  · refine ⟨?_, fun hne => absurd hother hne⟩
    intro hsame
    obtain ⟨boxed, hboxed, -⟩ := hother
    rw [hsame, hboxed] at hnone
    cases hnone

end Registry

namespace Request

theorem new_of_error {slots : Registry.Slots R} {K V : R.TypeId} {config : Option ComponentConfig}
    {e : CuError} (h : maxBatch? config = .error e) :
    CycleIngressTask.new slots K V config = (slots, .error e) := by
  simp [CycleIngressTask.new, h]

theorem new_of_zero {slots : Registry.Slots R} {K V : R.TypeId} {config : Option ComponentConfig}
    (h : maxBatch? config = .ok 0) : CycleIngressTask.new slots K V config =
      (slots, .error { msg := "CycleIngressTask max_batch must be > 0" }) := by
  simp [CycleIngressTask.new, h]

theorem new_of_pos (slots : Registry.Slots R) (K V : R.TypeId) {config : Option ComponentConfig}
    {n : Nat} (h : maxBatch? config = .ok n) (hn : 0 < n) :
    (CycleIngressTask.new slots K V config).1 = (Registry.take slots K V).1 ∧
      ∀ e, (CycleIngressTask.new slots K V config).2 = .error e ↔
        (Registry.take slots K V).2 = .error e := by
  have hne : n ≠ 0 := by omega
  simp only [CycleIngressTask.new, h, hne, dite_false]
  rw [show Registry.take slots K V =
    ((Registry.take slots K V).1, (Registry.take slots K V).2) from rfl]
  cases (Registry.take slots K V).2 <;> simp

/-- **A failed request keeps the registry exactly when it is not mistyped.** -/
theorem fails_keeps_iff {slots : Registry.Slots R} {r : Request R} (h : r.Fails slots) :
    r.after slots = slots ↔ ¬ r.Mistyped slots := by
  cases r with
  | install K V value =>
    obtain ⟨text, h⟩ := h
    by_cases hK : slots.containsKey K = true
    · simp [after, Mistyped, Registry.install, hK]
    · simp [Registry.install, hK] at h
  | take K V =>
    obtain ⟨e, h⟩ := h
    exact Registry.take_fails h
  | newCycleIngress K V config =>
    obtain ⟨e, h⟩ := h
    cases hcap : maxBatch? config with
    | error e' =>
      have hkeeps : (CycleIngressTask.new slots K V config).1 = slots := by
        rw [new_of_error hcap]
      simp [after, Mistyped, hkeeps, hcap]
    | ok n =>
      cases n with
      | zero =>
        have hkeeps : (CycleIngressTask.new slots K V config).1 = slots := by
          rw [new_of_zero hcap]
        simp [after, Mistyped, hkeeps, hcap]
      | succ n =>
        obtain ⟨hafter, herror⟩ := new_of_pos slots K V hcap (Nat.succ_pos n)
        have htake := Registry.take_fails ((herror e).mp h)
        rw [after, hafter, htake]
        simp [Mistyped, hcap]

/-! ## Runs -/

theorem after_of_ne {slots : Registry.Slots R} {r : Request R} {K : R.TypeId} (h : r.key ≠ K) :
    r.after slots K = slots K := by
  have htake (K' V : R.TypeId) (hne : K' ≠ K) : (Registry.take slots K' V).1 K = slots K := by
    rw [Registry.take_fst, Function.update_of_ne (Ne.symm hne)]
  cases r with
  | install K' V value =>
    by_cases hK : slots.containsKey K' = true
    · simp [after, Registry.install, hK]
    · simp only [after, Registry.install, hK]
      exact Function.update_of_ne (Ne.symm h) _ _
  | take K' V => exact htake K' V h
  | newCycleIngress K' V config =>
    cases hcap : maxBatch? config with
    | error e => simp [after, new_of_error hcap]
    | ok n =>
      rcases Nat.eq_zero_or_pos n with rfl | hpos
      · simp [after, new_of_zero hcap]
      · rw [after, (new_of_pos slots _ _ hcap hpos).1]
        exact htake K' V h

/-- A value that is there stays there through failed requests that are not mistyped. -/
theorem kept {slots : Registry.Slots R} {K : R.TypeId} {later : List (Request R)}
    (hlater : ∀ a r b, later = a ++ r :: b → r.key = K →
      r.Fails (a.foldl after slots) ∧ ¬ r.Mistyped (a.foldl after slots)) :
    later.foldl after slots K = slots K := by
  induction later generalizing slots with
  | nil => rfl
  | cons r later ih =>
    have hfirst : r.after slots K = slots K := by
      by_cases hkey : r.key = K
      · obtain ⟨hfails, htyped⟩ := hlater [] r later rfl hkey
        exact congrFun ((fails_keeps_iff hfails).mpr htyped) K
      · exact after_of_ne hkey
    rw [List.foldl_cons, ih, hfirst]
    intro a r' b heq hkey
    exact hlater (r :: a) r' b (congrArg (r :: ·) heq) hkey

/-- **A failed request leaves the registry as it was, unless it is mistyped.** In every run, at
every request that fails:

* every slot holds what it held before exactly when the request does not come to taking a value
  of another type than the slot holds;
* and a value that is installed is returned by a later take of its type, whatever is done to
  the other slots in between, if the requests on its own slot in between fail and are not
  mistyped. -/
theorem failed_requests_keep_slots (pre : List (Request R)) :
    (∀ r : Request R, r.Fails (run pre) → (r.after (run pre) = run pre ↔ ¬ r.Mistyped (run pre))) ∧
    (∀ K V value later, run pre K = some { typeId := V, value } →
      (∀ a r b, later = a ++ r :: b → r.key = K →
        r.Fails (run (pre ++ a)) ∧ ¬ r.Mistyped (run (pre ++ a))) →
      (Registry.take (run (pre ++ later)) K V).2 = .ok value) := by
  refine ⟨fun r hr => fails_keeps_iff hr, ?_⟩
  intro K V value later hheld hlater
  have hstill : run (pre ++ later) K = some { typeId := V, value } := by
    simp only [run, List.foldl_append] at hheld hlater ⊢
    rw [kept hlater, hheld]
  rcases Registry.take_cases (run (pre ++ later)) K V with ⟨hnone, -⟩ | ⟨v, hv, hok⟩ |
    ⟨⟨boxed, hboxed, hne⟩, -⟩
  · cases hnone.symm.trans hstill
  · cases hv.symm.trans hstill
    exact hok
  · cases hboxed.symm.trans hstill
    exact absurd rfl hne

/-- A second install fails and leaves the first value to a later take. -/
theorem failed_requests_keep_slots_again :
    let first : Request probeTypes := .install Probe.keyB Probe.u8 (5 : UInt8)
    let again : Request probeTypes := .install Probe.keyB Probe.u8 (6 : UInt8)
    again.after (run [first]) = run [first] ∧
      (Registry.take (run [first, again]) Probe.keyB Probe.u8).2 = .ok (5 : UInt8) := by
  intro first again
  obtain ⟨hkeeps, hreturned⟩ := failed_requests_keep_slots [first]
  have hfails : again.Fails (run [first]) := ⟨_, rfl⟩
  refine ⟨(hkeeps again hfails).mpr id, ?_⟩
  refine hreturned Probe.keyB Probe.u8 (5 : UInt8) [again] rfl fun a r b heq _ => ?_
  cases a with
  | nil =>
    obtain ⟨rfl, -⟩ := List.cons.inj heq
    exact ⟨hfails, id⟩
  | cons r' a => simp at heq

/-- A byte is installed and asked for as a word: the take fails, and the byte is gone. -/
theorem mistyped_take_loses_value :
    let held := run (R := probeTypes) [.install Probe.keyB Probe.u8 (5 : UInt8)]
    let asked : Request probeTypes := .take Probe.keyB Probe.u16
    asked.Fails held ∧ asked.after held ≠ held ∧
      ∀ value, (Registry.take (asked.after held) Probe.keyB Probe.u8).2 ≠ .ok value := by
  intro held asked
  have hheld : held Probe.keyB = some { typeId := Probe.u8, value := (5 : UInt8) } := rfl
  have hafter : asked.after held Probe.keyB = none := rfl
  refine ⟨⟨_, rfl⟩, ?_, ?_⟩
  · intro hsame
    rw [hsame, hheld] at hafter
    cases hafter
  · intro value h
    cases h

end Request

end Msrs
