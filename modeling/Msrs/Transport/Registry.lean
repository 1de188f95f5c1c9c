import Msrs.Cu
import Msrs.Lib.Keyed

/-!
# The registry

`registry.rs`: a process-wide map from task types to boxed values, through which channel ends
reach the tasks that copper constructs. Every operation holds the mutex for its one access to
the map, and a poisoned lock is recovered, so the operations of all threads happen one after the
other in the order in which they hold it: a run is the list of operations in that order.

`one_shot_cells` says what the map is for: each task type has a cell of its own, an installed
value leaves it at most once, with the first take, and a refused install changes nothing.
-/

namespace Msrs

/-- The types of a program, as `std::any` sees them: identity, name and values. -/
structure Types where
  TypeId : Type
  decEq : DecidableEq TypeId
  typeName : TypeId → String
  Value : TypeId → Type

instance (R : Types) : DecidableEq R.TypeId := R.decEq

variable {R : Types}

/-- `Box<dyn Any + Send>` -/
structure BoxAny (R : Types) where
  typeId : R.TypeId
  value : R.Value typeId

/-- `boxed.downcast::<V>()`: a box of another type is handed back. -/
def BoxAny.downcast (boxed : BoxAny R) (V : R.TypeId) : Except (BoxAny R) (R.Value V) :=
  if h : boxed.typeId = V then .ok (h ▸ boxed.value) else .error boxed

namespace Registry

/-! ## The map -/

/-- `HashMap<TypeId, Box<dyn Any + Send>>` -/
abbrev Slots (R : Types) : Type := R.TypeId → Option (BoxAny R)

namespace Slots

protected def empty : Slots R := fun _ => none

def containsKey (slots : Slots R) (key : R.TypeId) : Bool := (slots key).isSome

def insert (slots : Slots R) (key : R.TypeId) (boxed : BoxAny R) : Slots R :=
  Function.update slots key (some boxed)

def remove (slots : Slots R) (key : R.TypeId) : Slots R × Option (BoxAny R) :=
  (Function.update slots key none, slots key)

end Slots

/-- Park `value` for the task type `K`. An error is the text of the panic. -/
def install (slots : Slots R) (K V : R.TypeId) (value : R.Value V) :
    Slots R × Except String Unit :=
  if slots.containsKey K then
    -- The lock is released before the panic; the first install stays in place.
    (slots, .error (R.typeName K ++ " channel already installed"))
  else (slots.insert K { typeId := V, value }, .ok ())

/-- Take the value installed for the task type `K`. -/
def take (slots : Slots R) (K V : R.TypeId) : Slots R × Except CuError (R.Value V) :=
  match slots.remove K with
  | (slots, none) => (slots, .error { msg := R.typeName K ++
      " channel not installed; call install() before building the copper runtime" })
  | (slots, some boxed) =>
    match boxed.downcast V with
    | .ok value => (slots, .ok value)
    | .error _ => (slots, .error { msg := R.typeName K ++
        " registry slot holds a different type than " ++ R.typeName V })

end Registry

/-- An operation of some thread. -/
inductive RegistryOp (R : Types) where
  | install (K V : R.TypeId) (value : R.Value V)
  | take (K V : R.TypeId)

/-- How an operation ends. -/
inductive Reply (R : Types) where
  | installed
  | panicked (text : String)
  | taken (V : R.TypeId) (value : R.Value V)
  | failed (e : CuError)

/-- The task type an operation is about. -/
def RegistryOp.key : RegistryOp R → R.TypeId
  | .install K _ _ => K
  | .take K _ => K

namespace Registry

/-- One operation. -/
def perform (slots : Slots R) : RegistryOp R → Slots R × Reply R
  | .install K V value =>
    match install slots K V value with
    | (slots, .ok ()) => (slots, .installed)
    | (slots, .error text) => (slots, .panicked text)
  | .take K V =>
    match take slots K V with
    | (slots, .ok value) => (slots, .taken V value)
    | (slots, .error e) => (slots, .failed e)

/-- The registry after a run from the start of the process. -/
def after (ops : List (RegistryOp R)) : Slots R := Mealy.final perform .empty ops

/-- How the operations of a run end. -/
def replies (ops : List (RegistryOp R)) : List (Reply R) := Mealy.outputs perform .empty ops

/-! ## One cell -/

/-- What a cell does with an operation on its key: an install fills an empty cell, and a take
empties it. -/
def cell (slot : Option (BoxAny R)) : RegistryOp R → Option (BoxAny R) × Reply R
  | .install K V value =>
    match slot with
    | some boxed => (some boxed, .panicked (R.typeName K ++ " channel already installed"))
    | none => (some { typeId := V, value }, .installed)
  | .take K V =>
    match slot with
    | none => (none, .failed { msg := R.typeName K ++
        " channel not installed; call install() before building the copper runtime" })
    | some boxed =>
      match boxed.downcast V with
      | .ok value => (none, .taken V value)
      | .error _ => (none, .failed { msg := R.typeName K ++
          " registry slot holds a different type than " ++ R.typeName V })

/-- **The registry is a family of cells.** -/
theorem perform_eq : perform (R := R) = Keyed.step RegistryOp.key cell := by
  funext slots op
  cases op with
  | install K V value =>
    cases hK : slots K with
    | none => simp [perform, install, Slots.containsKey, Slots.insert, Keyed.step, cell,
        RegistryOp.key, hK]
    | some boxed =>
      have hsame : Function.update slots K (some boxed) = slots := hK ▸ Function.update_eq_self _ _
      simp [perform, install, Slots.containsKey, Keyed.step, cell, RegistryOp.key, hK, hsame]
  | take K V =>
    cases hK : slots K with
    | none => simp [perform, take, Slots.remove, Keyed.step, cell, RegistryOp.key, hK]
    | some boxed =>
      cases hV : boxed.downcast V with
      | ok value => simp [perform, take, Slots.remove, Keyed.step, cell, RegistryOp.key, hK, hV]
      | error b => simp [perform, take, Slots.remove, Keyed.step, cell, RegistryOp.key, hK, hV]

/-! ## One operation -/

theorem perform_fst (slots : Slots R) (op : RegistryOp R) :
    (perform slots op).1 op.key = (cell (slots op.key) op).1 := by
  rw [perform_eq, Keyed.step_self]

theorem perform_of_ne (slots : Slots R) {op : RegistryOp R} {K : R.TypeId} (h : op.key ≠ K) :
    (perform slots op).1 K = slots K := by
  rw [perform_eq, Keyed.step_of_ne _ _ _ h]

theorem perform_snd (slots : Slots R) (op : RegistryOp R) :
    (perform slots op).2 = (cell (slots op.key) op).2 := by
  rw [perform_eq, Keyed.step_snd]

theorem cell_take (slot : Option (BoxAny R)) (K V : R.TypeId) :
    (cell slot (.take K V)).1 = none := by
  cases slot with
  | none => rfl
  | some boxed =>
    simp only [cell]
    cases boxed.downcast V <;> rfl

theorem installed_iff (slots : Slots R) (K V : R.TypeId) (value : R.Value V) :
    (perform slots (.install K V value)).2 = .installed ↔ slots K = none := by
  rw [perform_snd]
  cases h : slots K <;> simp [cell, RegistryOp.key, h]

theorem panicked_iff (slots : Slots R) (K V : R.TypeId) (value : R.Value V) (text : String) :
    (perform slots (.install K V value)).2 = .panicked text ↔
      text = R.typeName K ++ " channel already installed" ∧ ∃ boxed, slots K = some boxed := by
  rw [perform_snd]
  cases h : slots K with
  | none => simp [cell, RegistryOp.key, h]
  | some boxed => simp [cell, RegistryOp.key, h, eq_comm]

theorem taken_iff (slots : Slots R) (K V : R.TypeId) (value : R.Value V) :
    (perform slots (.take K V)).2 = .taken V value ↔
      slots K = some { typeId := V, value } := by
  rw [perform_snd]
  cases h : slots K with
  | none => simp [cell, RegistryOp.key, h]
  | some boxed =>
    obtain ⟨W, w⟩ := boxed
    by_cases hW : W = V
    · subst hW
      simp [cell, RegistryOp.key, h, BoxAny.downcast]
    · have hne : ¬ ((⟨W, w⟩ : BoxAny R) = ⟨V, value⟩) := fun heq => hW (congrArg BoxAny.typeId heq)
      simp [cell, RegistryOp.key, h, BoxAny.downcast, hW]

/-! ## Runs -/

theorem after_snoc (ops : List (RegistryOp R)) (op : RegistryOp R) :
    after (ops ++ [op]) = (perform (after ops) op).1 := Mealy.final_snoc _ _ _ _

theorem replies_snoc (ops : List (RegistryOp R)) (op : RegistryOp R) :
    replies (ops ++ [op]) = replies ops ++ [(perform (after ops) op).2] :=
  Mealy.outputs_snoc _ _ _ _

theorem replies_append (ops ops' : List (RegistryOp R)) :
    replies (ops ++ ops') = replies ops ++ Mealy.outputs perform (after ops) ops' :=
  Mealy.outputs_append _ _ _ _

theorem length_replies (ops : List (RegistryOp R)) : (replies ops).length = ops.length :=
  Mealy.length_outputs _ _ _

/-- The reply to an operation depends on the operations before it. -/
theorem reply_of_getElem? {ops : List (RegistryOp R)} {j : Nat} {op : RegistryOp R}
    (h : ops[j]? = some op) : (replies ops)[j]? = some (perform (after (ops.take j)) op).2 := by
  rw [replies, Mealy.getElem?_outputs, h]
  rfl

/-- The value `boxed` was installed for `K` by the operation `i`, and nobody has asked for it
since. -/
def ParkedBy (ops : List (RegistryOp R)) (i : Nat) (K : R.TypeId) (boxed : BoxAny R) : Prop :=
  ops[i]? = some (.install K boxed.typeId boxed.value) ∧ (replies ops)[i]? = some .installed ∧
    ∀ l, i < l → ∀ W, ops[l]? ≠ some (.take K W)

/-- One more operation: a take on `K` ends it, and a successful install begins it. -/
theorem parkedBy_snoc {ops : List (RegistryOp R)} {op : RegistryOp R} {i : Nat} {K : R.TypeId}
    {boxed : BoxAny R} : ParkedBy (ops ++ [op]) i K boxed ↔
      (ParkedBy ops i K boxed ∧ ∀ W, op ≠ .take K W) ∨
        (i = ops.length ∧ op = .install K boxed.typeId boxed.value ∧
          (perform (after ops) op).2 = .installed) := by
  have hold {j : Nat} {op' : RegistryOp R} (h : ops[j]? = some op') : j < ops.length :=
    (List.getElem?_eq_some_iff.mp h).1
  simp only [ParkedBy, replies_snoc, ne_eq, Mealy.getElem?_snoc, length_replies]
  constructor
  · rintro ⟨hop | ⟨rfl, hop⟩, hreply | ⟨hlast, hreply⟩, hsince⟩
    · refine Or.inl ⟨⟨hop, hreply, ?_⟩, ?_⟩
      · intro l hl W htake
        exact hsince l hl W (Or.inl htake)
      · intro W htake
        exact hsince _ (hold hop) W (Or.inr ⟨rfl, htake⟩)
    · have hlt := hold hop
      omega
    · have hlt := (List.getElem?_eq_some_iff.mp hreply).1
      rw [length_replies] at hlt
      omega
    · exact Or.inr ⟨rfl, hop, hreply⟩
  · rintro (⟨⟨hop, hreply, hsince⟩, hne⟩ | ⟨rfl, rfl, hreply⟩)
    · refine ⟨Or.inl hop, Or.inl hreply, ?_⟩
      intro l hl W h
      rcases h with htake | ⟨-, htake⟩
      · exact hsince l hl W htake
      · exact hne W htake
    · refine ⟨Or.inr ⟨rfl, rfl⟩, Or.inr ⟨rfl, hreply⟩, ?_⟩
      intro l hl W h
      rcases h with htake | ⟨hlast, -⟩
      · have hlt := hold htake
        omega
      · omega

theorem after_eq_some {ops : List (RegistryOp R)} {K : R.TypeId} {boxed : BoxAny R} :
    after ops K = some boxed ↔ ∃ i, ParkedBy ops i K boxed := by
  induction ops using List.reverseRecOn generalizing boxed with
  | nil =>
    refine ⟨fun h => ?_, fun h => ?_⟩
    · cases h
    · obtain ⟨i, h, -⟩ := h
      cases h
  | append_singleton ops op ih =>
    have hsnoc : (∃ i, ParkedBy (ops ++ [op]) i K boxed) ↔
        (after ops K = some boxed ∧ ∀ W, op ≠ .take K W) ∨
          (op = .install K boxed.typeId boxed.value ∧
            (perform (after ops) op).2 = .installed) := by
      simp only [parkedBy_snoc, exists_or, exists_and_right, ih, exists_eq, true_and]
    rw [hsnoc, after_snoc]
    by_cases hkey : op.key = K
    · subst hkey
      rw [perform_fst]
      cases op with
      | take K V =>
        rw [cell_take]
        constructor
        · intro h
          cases h
        · rintro (⟨-, hne⟩ | ⟨heq, -⟩)
          · exact absurd rfl (hne V)
          · cases heq
      | install K V value =>
        rw [installed_iff]
        obtain ⟨W, w⟩ := boxed
        cases h : after ops K with
        | none => simp [cell, RegistryOp.key, h]
        | some boxed' => simp [cell, RegistryOp.key, h]
    · rw [perform_of_ne _ hkey]
      have hne : ∀ W, op ≠ .take K W := by
        rintro W rfl
        exact hkey rfl
      have hinstall : op ≠ .install K boxed.typeId boxed.value := by
        rintro rfl
        exact hkey rfl
      simp [hne, hinstall]

/-- The value `boxed`, installed for `K` by the operation `i`, is still there when the operation
`j` begins: the install succeeded, and no take on `K` came between the two. -/
def ParkedUntil (ops : List (RegistryOp R)) (i j : Nat) (K : R.TypeId) (boxed : BoxAny R) : Prop :=
  i < j ∧ ops[i]? = some (.install K boxed.typeId boxed.value) ∧
    (replies ops)[i]? = some .installed ∧
    ∀ l, i < l → l < j → ∀ W, ops[l]? ≠ some (.take K W)

theorem parkedBy_take {ops : List (RegistryOp R)} {i j : Nat} {K : R.TypeId} {boxed : BoxAny R} :
    ParkedBy (ops.take j) i K boxed ↔ ParkedUntil ops i j K boxed := by
  unfold ParkedBy ParkedUntil
  rw [show replies (ops.take j) = (replies ops).take j from Mealy.outputs_take _ _ _ _]
  refine ⟨fun h => ?_, fun h => ?_⟩
  · obtain ⟨hop, hreply, hsince⟩ := h
    have hij : i < j := by
      by_contra hge
      rw [List.getElem?_take_eq_none (by omega)] at hop
      cases hop
    rw [List.getElem?_take_of_lt hij] at hop hreply
    refine ⟨hij, hop, hreply, ?_⟩
    intro l hil hlj W htake
    exact hsince l hil W (by rwa [List.getElem?_take_of_lt hlj])
  · obtain ⟨hij, hop, hreply, hsince⟩ := h
    rw [List.getElem?_take_of_lt hij, List.getElem?_take_of_lt hij]
    refine ⟨hop, hreply, ?_⟩
    intro l hil W htake
    by_cases hlj : l < j
    · rw [List.getElem?_take_of_lt hlj] at htake
      exact hsince l hil hlj W htake
    · rw [List.getElem?_take_eq_none (by omega)] at htake
      cases htake

/-- What the map holds for `K` when the operation `j` begins. -/
theorem after_take_eq_some {ops : List (RegistryOp R)} {j : Nat} {K : R.TypeId}
    {boxed : BoxAny R} :
    after (ops.take j) K = some boxed ↔ ∃ i, ParkedUntil ops i j K boxed := by
  rw [after_eq_some]
  exact exists_congr fun i => parkedBy_take

theorem ParkedUntil.not_installed {ops : List (RegistryOp R)} {i i' j : Nat} {K : R.TypeId}
    {boxed boxed' : BoxAny R} (h : ParkedUntil ops i j K boxed)
    (h' : ParkedUntil ops i' j K boxed') : ¬ i < i' := by
  intro hlt
  obtain ⟨-, hop, hreply, hsince⟩ := h
  obtain ⟨hij, hop', hreply', -⟩ := h'
  have hheld : after (ops.take i') K = some boxed :=
    after_take_eq_some.mpr ⟨i, hlt, hop, hreply, fun l hil hli => hsince l hil (by omega)⟩
  have hfree := Option.some.inj ((reply_of_getElem? hop').symm.trans hreply')
  rw [installed_iff, hheld] at hfree
  cases hfree

/-- A panicked install can be left out: no other operation can tell. -/
theorem replies_panicked {pre post : List (RegistryOp R)} {K V : R.TypeId} {value : R.Value V}
    {text : String}
    (h : (perform (after pre) (.install K V value)).2 = .panicked text) :
    replies (pre ++ .install K V value :: post) =
      replies pre ++ .panicked text :: (replies (pre ++ post)).drop pre.length := by
  have hsame : (perform (after pre) (.install K V value)).1 = after pre := by
    obtain ⟨-, boxed, hboxed⟩ := (panicked_iff _ _ _ _ _).mp h
    simp [perform, install, Slots.containsKey, hboxed]
  rw [replies_append, replies_append, ← length_replies pre, List.drop_left, Mealy.outputs_cons,
    h, hsame]

/-- **The registry is a family of independent one-shot cells.** In every run:

* the operations on a key end as they end when only they are run,
* a take returns a value exactly when the value was installed for its key, with the type of the
  take, and nobody has asked for it since,
* so that at most one take returns the value of an install, and a take that of one install,
* an install panics exactly when an installed value is still there,
* and then every other operation ends as it does without the panicked one. -/
theorem one_shot_cells (ops : List (RegistryOp R)) :
    (∀ K, Keyed.outputsAt RegistryOp.key K ops (replies ops) =
      replies (Keyed.inputsAt RegistryOp.key K ops)) ∧
    (∀ j K V value, ops[j]? = some (.take K V) →
      ((replies ops)[j]? = some (.taken V value) ↔
        ∃ i, ParkedUntil ops i j K { typeId := V, value })) ∧
    (∀ i j j' K V V' boxed, ops[j]? = some (.take K V) → ops[j']? = some (.take K V') →
      ParkedUntil ops i j K boxed → ParkedUntil ops i j' K boxed → j = j') ∧
    (∀ i i' j K boxed boxed', ParkedUntil ops i j K boxed → ParkedUntil ops i' j K boxed' →
      i = i') ∧
    (∀ j K V value text, ops[j]? = some (.install K V value) →
      ((replies ops)[j]? = some (.panicked text) ↔
        text = R.typeName K ++ " channel already installed" ∧
          ∃ i boxed, ParkedUntil ops i j K boxed)) ∧
    (∀ pre K V value post text, ops = pre ++ .install K V value :: post →
      (replies ops)[pre.length]? = some (.panicked text) →
      replies ops = replies pre ++ .panicked text :: (replies (pre ++ post)).drop pre.length) := by
  refine ⟨?_, ?_, ?_, ?_, ?_, ?_⟩
  · intro K
    rw [replies, replies, perform_eq]
    exact Keyed.isolation _ _ _ _ _
  · intro j K V value hj
    rw [reply_of_getElem? hj, Option.some.injEq, taken_iff, after_take_eq_some]
  · intro i j j' K V V' boxed hj hj' h h'
    rcases Nat.lt_trichotomy j j' with hlt | heq | hgt
    · exact absurd hj (h'.2.2.2 j h.1 hlt V)
    · exact heq
    · exact absurd hj' (h.2.2.2 j' h'.1 hgt V')
  · intro i i' j K boxed boxed' h h'
    have hge := h.not_installed h'
    have hle := h'.not_installed h
    omega
  · intro j K V value text hj
    rw [reply_of_getElem? hj, Option.some.injEq, panicked_iff]
    simp only [after_take_eq_some]
    rw [exists_comm]
  · rintro pre K V value post text rfl hreply
    have hop : (pre ++ .install K V value :: post)[pre.length]? = some (.install K V value) := by
      simp
    rw [reply_of_getElem? hop, List.take_left, Option.some.injEq] at hreply
    exact replies_panicked hreply

end Registry

/-- A task type and two value types. -/
inductive Probe where
  | keyB
  | u8
  | u16
  deriving DecidableEq

def probeTypes : Types where
  TypeId := Probe
  decEq := inferInstance
  typeName
    | .keyB => "KeyB"
    | .u8 => "u8"
    | .u16 => "u16"
  Value
    | .keyB => Unit
    | .u8 => UInt8
    | .u16 => UInt16

/-- Two installs and two takes on one key: the second install panics, the first take returns the
value of the first install, and no other take does. -/
theorem Registry.one_shot_cells_twice :
    let ops : List (RegistryOp probeTypes) :=
      [.install Probe.keyB Probe.u8 (5 : UInt8), .install Probe.keyB Probe.u8 (6 : UInt8),
        .take Probe.keyB Probe.u8, .take Probe.keyB Probe.u8]
    (replies ops)[1]? = some (.panicked "KeyB channel already installed") ∧
      (replies ops)[2]? = some (.taken Probe.u8 (5 : UInt8)) ∧
      ∀ j, ops[j]? = some (.take Probe.keyB Probe.u8) →
        ParkedUntil ops 0 j Probe.keyB { typeId := Probe.u8, value := (5 : UInt8) } → j = 2 := by
  intro ops
  obtain ⟨-, htakes, hone, -, hpanics, -⟩ := one_shot_cells ops
  have hparked (j : Nat) (hpos : 0 < j) (hle : j ≤ 2) :
      ParkedUntil ops 0 j Probe.keyB { typeId := Probe.u8, value := (5 : UInt8) } := by
    refine ⟨hpos, rfl, rfl, fun l hlo hhi W htake => ?_⟩
    obtain rfl : l = 1 := by omega
    cases htake
  refine ⟨(hpanics 1 _ _ _ _ rfl).mpr ⟨rfl, 0, _, hparked 1 (by decide) (by decide)⟩,
    (htakes 2 _ _ _ rfl).mpr ⟨0, hparked 2 (by decide) (Nat.le_refl 2)⟩, fun j hj hparked' => ?_⟩
  exact hone 0 j 2 _ _ _ _ hj rfl hparked' (hparked 2 (by decide) (Nat.le_refl 2))

end Msrs
