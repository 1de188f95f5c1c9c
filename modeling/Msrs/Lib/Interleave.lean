import Msrs.Lib.Prog
import Mathlib.Data.List.Induction

/-!
# Interleaved runs of a staged loop

One party runs a program in a loop, cut into *stages*: stage `k` starts from the memory the
stage before it left, performs its calls on a shared world, and its result is the new memory.
Between any two calls, and before and after each stage, an environment may act on the same
world. A *schedule* is a list of choices: an action of the environment, or the next move of the
loop. A claim about every schedule is a claim about every interleaving.

**Labels.** Everything that happened, in order: each call with its result and each action of
the environment with its acknowledgement. The history of a run stamps every label with the
number of the stage during which it happened.

**Separation.** A run of one stage splits into a fact about the world alone (`Legal`: the
results are those the world gives) and a fact about the program alone (`Follows` on the calls
among the labels). Laws of the shared world are proved of `Legal` label lists without any
program, facts about programs without any world.

**The run rule** (`run_rule`). An invariant of the stage boundaries that holds at the start
and that every complete stage carries to the next boundary gives, at every moment of every
run: it held when the current stage began, and the current stage has run legally since.
-/

namespace Interleave

variable {Op : Type} {Res : Op → Type} {E A W S α β : Type}

/-- What the operations and the environment's actions do to the shared world. -/
structure Shared (Op : Type) (Res : Op → Type) (E A W : Type) where
  /-- Perform an operation. -/
  handle : W → (o : Op) → Res o × W
  /-- An action of the environment, acknowledged with an `A`. -/
  act : W → E → A × W

/-- One thing that happened. -/
inductive Label (Op : Type) (Res : Op → Type) (E A : Type) : Type where
  | call (c : Call Op Res)
  | env (e : E) (a : A)

/-- The call a label stands for, if it is one. -/
def Label.call? : Label Op Res E A → Option (Call Op Res)
  | .call c => some c
  | .env _ _ => none

/-- The calls among the labels. -/
def calls (ls : List (Label Op Res E A)) : List (Call Op Res) := ls.filterMap Label.call?

@[simp] theorem calls_nil : calls ([] : List (Label Op Res E A)) = [] := rfl

@[simp] theorem calls_call (c : Call Op Res) (ls : List (Label Op Res E A)) :
    calls (.call c :: ls) = c :: calls ls := rfl

@[simp] theorem calls_env (e : E) (a : A) (ls : List (Label Op Res E A)) :
    calls (.env e a :: ls) = calls ls := rfl

@[simp] theorem calls_append (ls ms : List (Label Op Res E A)) :
    calls (ls ++ ms) = calls ls ++ calls ms := List.filterMap_append

namespace Shared

variable (sh : Shared Op Res E A W)

/-! ## Legal label lists -/

/-- From the world `w`, the labels are what the world answers, and they end in `w'`. -/
def Legal : W → List (Label Op Res E A) → W → Prop
  | w, [], w' => w' = w
  | w, .call c :: ls, w' => (sh.handle w c.1).1 = c.2 ∧ Legal (sh.handle w c.1).2 ls w'
  | w, .env e a :: ls, w' => (sh.act w e).1 = a ∧ Legal (sh.act w e).2 ls w'

theorem legal_append (w w' : W) (ls ms : List (Label Op Res E A)) :
    sh.Legal w (ls ++ ms) w' ↔ ∃ v, sh.Legal w ls v ∧ sh.Legal v ms w' := by
  induction ls generalizing w with
  | nil => simp [Legal]
  | cons l ls ih =>
    cases l with
    | call c =>
      simp only [List.cons_append, Legal, ih]
      refine ⟨fun h => ?_, fun h => ?_⟩
      · obtain ⟨hr, v, h₁, h₂⟩ := h
        exact ⟨v, ⟨hr, h₁⟩, h₂⟩
      · obtain ⟨v, ⟨hr, h₁⟩, h₂⟩ := h
        exact ⟨hr, v, h₁, h₂⟩
    | env e a =>
      simp only [List.cons_append, Legal, ih]
      refine ⟨fun h => ?_, fun h => ?_⟩
      · obtain ⟨hr, v, h₁, h₂⟩ := h
        exact ⟨v, ⟨hr, h₁⟩, h₂⟩
      · obtain ⟨v, ⟨hr, h₁⟩, h₂⟩ := h
        exact ⟨hr, v, h₁, h₂⟩

theorem Legal.unique {ls : List (Label Op Res E A)} {w v v' : W} (h : sh.Legal w ls v)
    (h' : sh.Legal w ls v') : v = v' := by
  induction ls generalizing w with
  | nil =>
    obtain rfl : v = w := h
    exact h'.symm
  | cons l ls ih =>
    cases l with
    | call c => exact ih h.2 h'.2
    | env e a => exact ih h.2 h'.2

theorem Legal.track_from {R : List (Label Op Res E A) → W → Prop}
    (hcall : ∀ ls w o, R ls w →
      R (ls ++ [.call ⟨o, (sh.handle w o).1⟩]) (sh.handle w o).2)
    (henv : ∀ ls w e, R ls w → R (ls ++ [.env e (sh.act w e).1]) (sh.act w e).2)
    {past ls : List (Label Op Res E A)} {w w' : W} (h0 : R past w) (h : sh.Legal w ls w') :
    R (past ++ ls) w' := by
  induction ls generalizing past w with
  | nil =>
    obtain rfl : w' = w := h
    simpa using h0
  | cons l ls ih =>
    cases l with
    | call c =>
      obtain ⟨o, r⟩ := c
      obtain ⟨hr, h⟩ := h
      dsimp only at hr h
      subst hr
      simpa using ih (hcall past w o h0) h
    | env e a =>
      obtain ⟨rfl, h⟩ := h
      simpa using ih (henv past w e h0) h

/-- A quantity of the world that every single step keeps in agreement with the labels so far
agrees with them over any legal label list: `R` relates the labels to the world they reach. -/
theorem Legal.track {R : List (Label Op Res E A) → W → Prop}
    (hcall : ∀ ls w o, R ls w →
      R (ls ++ [.call ⟨o, (sh.handle w o).1⟩]) (sh.handle w o).2)
    (henv : ∀ ls w e, R ls w → R (ls ++ [.env e (sh.act w e).1]) (sh.act w e).2)
    {ls : List (Label Op Res E A)} {w w' : W} (h0 : R [] w) (h : sh.Legal w ls w') : R ls w' :=
  Legal.track_from sh hcall henv h0 h

/-! ## The staged loop -/

/-- A moment of a run: the world, the memory the current stage started from, the number of the
current stage, what is left of it, and the stamped history. -/
structure Config (Op : Type) (Res : Op → Type) (E A W S : Type) where
  world : W
  mem : S
  stage : Nat
  cur : Prog Op Res S
  hist : List (Nat × Label Op Res E A)

/-- One choice of the scheduler: let the environment act, or let the loop move. -/
inductive Choice (E : Type) : Type where
  | env (e : E)
  | move

/-- The moment before anything happens. -/
def start (body : Nat → S → Prog Op Res S) (s : S) (w : W) : Config Op Res E A W S :=
  { world := w, mem := s, stage := 0, cur := body 0 s, hist := [] }

/-- One step. A move of the loop performs the next call of the current stage, or, when the
stage has returned, makes its result the memory and begins the next stage. -/
def next (body : Nat → S → Prog Op Res S) (c : Config Op Res E A W S) :
    Choice E → Config Op Res E A W S
  | .env e => { c with
      world := (sh.act c.world e).2
      hist := c.hist ++ [(c.stage, .env e (sh.act c.world e).1)] }
  | .move =>
    match c.cur with
    | .ret s => { c with mem := s, stage := c.stage + 1, cur := body (c.stage + 1) s }
    | .call o k => { c with
        world := (sh.handle c.world o).2
        cur := k (sh.handle c.world o).1
        hist := c.hist ++ [(c.stage, .call ⟨o, (sh.handle c.world o).1⟩)] }

/-- The moment a schedule leads to. -/
def run (body : Nat → S → Prog Op Res S) (c : Config Op Res E A W S) (sched : List (Choice E)) :
    Config Op Res E A W S :=
  sched.foldl (sh.next body) c

variable {sh} {body : Nat → S → Prog Op Res S}

@[simp] theorem run_nil (c : Config Op Res E A W S) : sh.run body c [] = c := rfl

theorem run_snoc (c : Config Op Res E A W S) (sched : List (Choice E)) (x : Choice E) :
    sh.run body c (sched ++ [x]) = sh.next body (sh.run body c sched) x := by
  simp [run]

/-- The labels of stage `k`. -/
def stamp (k : Nat) (ls : List (Label Op Res E A)) : List (Nat × Label Op Res E A) :=
  ls.map fun l => (k, l)

@[simp] theorem stamp_nil (k : Nat) : stamp k ([] : List (Label Op Res E A)) = [] := rfl

@[simp] theorem stamp_append (k : Nat) (ls ms : List (Label Op Res E A)) :
    stamp k (ls ++ ms) = stamp k ls ++ stamp k ms := List.map_append

@[simp] theorem map_snd_stamp (k : Nat) (ls : List (Label Op Res E A)) :
    (stamp k ls).map Prod.snd = ls := by
  simp [stamp, Function.comp_def]

theorem fst_of_mem_stamp {k : Nat} {ls : List (Label Op Res E A)} {x : Nat × Label Op Res E A}
    (h : x ∈ stamp k ls) : x.1 = k := by
  obtain ⟨l, -, rfl⟩ := List.mem_map.mp h
  rfl

/-- The labels of stage `k` in a history. -/
def labelsOf (h : List (Nat × Label Op Res E A)) (k : Nat) : List (Label Op Res E A) :=
  (h.filter fun x => x.1 == k).map Prod.snd

theorem labelsOf_append (h h' : List (Nat × Label Op Res E A)) (k : Nat) :
    labelsOf (h ++ h') k = labelsOf h k ++ labelsOf h' k := by
  simp [labelsOf]

theorem labelsOf_stamp_self (k : Nat) (ls : List (Label Op Res E A)) :
    labelsOf (stamp k ls) k = ls := by
  have hall : (stamp k ls).filter (fun x => x.1 == k) = stamp k ls := by
    apply List.filter_eq_self.mpr
    intro x hx
    exact beq_iff_eq.mpr (fst_of_mem_stamp hx)
  rw [labelsOf, hall, map_snd_stamp]

theorem labelsOf_eq_nil {h : List (Nat × Label Op Res E A)} {k : Nat} (hne : ∀ x ∈ h, x.1 ≠ k) :
    labelsOf h k = [] := by
  have hnone : h.filter (fun x => x.1 == k) = [] := by
    apply List.filter_eq_nil_iff.mpr
    intro x hx heq
    exact hne x hx (beq_iff_eq.mp heq)
  rw [labelsOf, hnone, List.map_nil]

theorem mem_labelsOf {h : List (Nat × Label Op Res E A)} {x : Nat × Label Op Res E A}
    (hx : x ∈ h) : x.2 ∈ labelsOf h x.1 :=
  List.mem_map.mpr ⟨x, List.mem_filter.mpr ⟨hx, beq_self_eq_true _⟩, rfl⟩

variable (sh body) in
/-- The whole history is legal: it leads from the first world to the current one. -/
theorem legal_hist (s : S) (w : W) (sched : List (Choice E)) :
    sh.Legal w ((sh.run body (start body s w) sched).hist.map Prod.snd)
      (sh.run body (start body s w) sched).world := by
  induction sched using List.reverseRecOn with
  | nil => rfl
  | append_singleton sched x ih =>
    rw [run_snoc]
    generalize sh.run body (start body s w) sched = c at ih
    cases x with
    | env e =>
      simp only [next, List.map_append, List.map_cons, List.map_nil]
      exact (sh.legal_append _ _ _ _).mpr ⟨_, ih, rfl, rfl⟩
    | move =>
      cases hcur : c.cur with
      | ret s => simpa only [next, hcur] using ih
      | call o k =>
        simp only [next, hcur, List.map_append, List.map_cons, List.map_nil]
        exact (sh.legal_append _ _ _ _).mpr ⟨_, ih, rfl, rfl⟩

/-- Stage `k` run to its end from memory `s` and world `w`: legal labels through which its
program returns `s'`. -/
structure Ran (sh : Shared Op Res E A W) (p : Prog Op Res α) (w : W)
    (ls : List (Label Op Res E A)) (w' : W) (a : α) : Prop where
  legal : sh.Legal w ls w'
  yields : p.Yields (calls ls) a

/-- A stage under way: legal labels through which its program has become `q`. -/
structure Running (sh : Shared Op Res E A W) (p : Prog Op Res α) (w : W)
    (ls : List (Label Op Res E A)) (w' : W) (q : Prog Op Res α) : Prop where
  legal : sh.Legal w ls w'
  follows : p.Follows (calls ls) q

theorem Running.env {p : Prog Op Res α} {w w' : W} {ls : List (Label Op Res E A)}
    {q : Prog Op Res α} (h : Running sh p w ls w' q) (e : E) :
    Running sh p w (ls ++ [.env e (sh.act w' e).1]) (sh.act w' e).2 q :=
  ⟨(sh.legal_append _ _ _ _).mpr ⟨w', h.legal, rfl, rfl⟩, by simpa using h.follows⟩

theorem Running.call {p : Prog Op Res α} {w w' : W} {ls : List (Label Op Res E A)} {o : Op}
    {k : Res o → Prog Op Res α} (h : Running sh p w ls w' (.call o k)) :
    Running sh p w (ls ++ [.call ⟨o, (sh.handle w' o).1⟩]) (sh.handle w' o).2
      (k (sh.handle w' o).1) :=
  ⟨(sh.legal_append _ _ _ _).mpr ⟨w', h.legal, rfl, rfl⟩, by
    simpa using h.follows.snoc (sh.handle w' o).1⟩

variable (sh body) in
/-- **The run rule.** An invariant `J` of the stage boundaries, kept by every complete stage,
held when the current stage of any run began, and that stage has run legally since. -/
theorem run_rule {J : Nat → S → W → List (Nat × Label Op Res E A) → Prop} {s : S} {w : W}
    (h0 : J 0 s w [])
    (hstep : ∀ k s w h ls w' s', J k s w h → (∀ x ∈ h, x.1 < k) → Ran sh (body k s) w ls w' s' →
      J (k + 1) s' w' (h ++ stamp k ls)) (sched : List (Choice E)) :
    ∃ w₀ h₀ ls, J (sh.run body (start body s w) sched).stage
        (sh.run body (start body s w) sched).mem w₀ h₀ ∧
      Running sh (body (sh.run body (start body s w) sched).stage
        (sh.run body (start body s w) sched).mem) w₀ ls
        (sh.run body (start body s w) sched).world (sh.run body (start body s w) sched).cur ∧
      (sh.run body (start body s w) sched).hist =
        h₀ ++ stamp (sh.run body (start body s w) sched).stage ls ∧
      ∀ x ∈ h₀, x.1 < (sh.run body (start body s w) sched).stage := by
  induction sched using List.reverseRecOn with
  | nil => exact ⟨w, [], [], h0, ⟨rfl, rfl⟩, rfl, by simp⟩
  | append_singleton sched x ih =>
    rw [run_snoc]
    generalize sh.run body (start body s w) sched = c at ih
    obtain ⟨w₀, h₀, ls, hJ, hrun, hhist, hlt⟩ := ih
    cases x with
    | env e =>
      simp only [next]
      exact ⟨w₀, h₀, ls ++ [.env e (sh.act c.world e).1], hJ, hrun.env e, by
        simp [hhist, stamp], hlt⟩
    | move =>
      cases hcur : c.cur with
      | ret s' =>
        -- The stage has returned: its labels are complete, and the next stage has done nothing.
        simp only [next, hcur]
        rw [hcur] at hrun
        refine ⟨c.world, c.hist, [], ?_, ⟨rfl, rfl⟩, by simp, ?_⟩
        · rw [hhist]
          exact hstep _ _ _ _ _ _ _ hJ hlt ⟨hrun.legal, hrun.follows⟩
        · intro x hx
          rw [hhist, List.mem_append] at hx
          rcases hx with hx | hx
          · exact Nat.lt_succ_of_lt (hlt x hx)
          · rw [fst_of_mem_stamp hx]
            exact Nat.lt_succ_self _
      | call o k =>
        simp only [next, hcur]
        rw [hcur] at hrun
        exact ⟨w₀, h₀, ls ++ [.call ⟨o, (sh.handle c.world o).1⟩], hJ, hrun.call, by
          simp [hhist, stamp], hlt⟩

/-- The labels of stage `k`. -/
def Config.ofStage (c : Config Op Res E A W S) (k : Nat) : List (Label Op Res E A) :=
  labelsOf c.hist k

/-- The calls of the whole history. -/
def Config.calls (c : Config Op Res E A W S) : List (Call Op Res) :=
  Interleave.calls (c.hist.map Prod.snd)

variable (sh body) in
/-- **The run rule for programs.** The same for an invariant that speaks of the memory and the
calls alone, and so needs nothing of the world. -/
theorem run_rule_calls {J : Nat → S → List (Call Op Res) → Prop} {s : S} {w : W}
    (h0 : J 0 s [])
    (hstep : ∀ k s cs ds s', J k s cs → (body k s).Yields ds s' → J (k + 1) s' (cs ++ ds))
    (sched : List (Choice E)) :
    ∃ cs ds, J (sh.run body (start body s w) sched).stage
        (sh.run body (start body s w) sched).mem cs ∧
      (body (sh.run body (start body s w) sched).stage
        (sh.run body (start body s w) sched).mem).Follows ds
        (sh.run body (start body s w) sched).cur ∧
      (sh.run body (start body s w) sched).calls = cs ++ ds ∧
      ds = Interleave.calls ((sh.run body (start body s w) sched).ofStage
        (sh.run body (start body s w) sched).stage) := by
  obtain ⟨w₀, h₀, ls, hJ, hrun, hhist, hlt⟩ := run_rule sh body
    (J := fun k s _ h => J k s (Interleave.calls (h.map Prod.snd))) (w := w) h0
    (fun k s w h ls w' s' hJ _ hran => by
      rw [List.map_append, map_snd_stamp, calls_append]
      exact hstep k s _ _ s' hJ hran.yields) sched
  generalize sh.run body (start body s w) sched = c at hJ hrun hhist hlt
  refine ⟨_, Interleave.calls ls, hJ, hrun.follows, ?_, ?_⟩
  · rw [Config.calls, hhist, List.map_append, map_snd_stamp, calls_append]
  · rw [Config.ofStage, hhist, labelsOf_append, labelsOf_stamp_self,
      labelsOf_eq_nil fun x hx => Nat.ne_of_lt (hlt x hx), List.nil_append]

variable (sh body) in
/-- **The run rule from a moment.** An invariant of the stage boundaries that holds when the
stage of the moment `c` ends, however it ends, and that every later stage keeps: at every later
moment the run is either still in the stage of `c`, or the invariant held when the current
stage began. -/
theorem run_rule_from {J : Nat → S → W → Prop} (c : Config Op Res E A W S)
    (hfirst : ∀ ls w' s', Ran sh c.cur c.world ls w' s' → J (c.stage + 1) s' w')
    (hstep : ∀ k s w ls w' s', J k s w → Ran sh (body k s) w ls w' s' → J (k + 1) s' w')
    (sched : List (Choice E)) :
    ((sh.run body c sched).stage = c.stage ∧ (sh.run body c sched).mem = c.mem ∧
        ∃ ls, Running sh c.cur c.world ls (sh.run body c sched).world
          (sh.run body c sched).cur) ∨
      ∃ w₀ ls, J (sh.run body c sched).stage (sh.run body c sched).mem w₀ ∧
        Running sh (body (sh.run body c sched).stage (sh.run body c sched).mem) w₀ ls
          (sh.run body c sched).world (sh.run body c sched).cur := by
  induction sched using List.reverseRecOn with
  | nil => exact Or.inl ⟨rfl, rfl, [], rfl, rfl⟩
  | append_singleton sched x ih =>
    rw [run_snoc]
    generalize sh.run body c sched = d at ih
    cases x with
    | env e =>
      simp only [next]
      rcases ih with ⟨hstage, hmem, ls, hrun⟩ | ⟨w₀, ls, hJ, hrun⟩
      · exact Or.inl ⟨hstage, hmem, _, hrun.env e⟩
      · exact Or.inr ⟨w₀, _, hJ, hrun.env e⟩
    | move =>
      cases hcur : d.cur with
      | ret s' =>
        simp only [next, hcur]
        refine Or.inr ⟨d.world, [], ?_, rfl, rfl⟩
        rcases ih with ⟨hstage, -, ls, hrun⟩ | ⟨w₀, ls, hJ, hrun⟩
        · rw [hcur] at hrun
          rw [hstage]
          exact hfirst ls _ s' ⟨hrun.legal, hrun.follows⟩
        · rw [hcur] at hrun
          exact hstep _ _ _ ls _ s' hJ ⟨hrun.legal, hrun.follows⟩
      | call o k =>
        simp only [next, hcur]
        rcases ih with ⟨hstage, hmem, ls, hrun⟩ | ⟨w₀, ls, hJ, hrun⟩
        · rw [hcur] at hrun
          exact Or.inl ⟨hstage, hmem, _, hrun.call⟩
        · rw [hcur] at hrun
          exact Or.inr ⟨w₀, _, hJ, hrun.call⟩

variable (sh body) in
/-- Every earlier history was the history of an earlier moment of the run. -/
theorem exists_moment (s : S) (w : W) (sched : List (Choice E))
    {pre post : List (Nat × Label Op Res E A)}
    (h : (sh.run body (start body s w) sched).hist = pre ++ post) :
    ∃ n, (sh.run body (start body s w) (sched.take n)).hist = pre := by
  induction sched using List.reverseRecOn generalizing post with
  | nil => exact ⟨0, (List.append_eq_nil_iff.mp h.symm).1.symm⟩
  | append_singleton sched x ih =>
    rcases List.eq_nil_or_concat post with rfl | ⟨post, l, rfl⟩
    · exact ⟨(sched ++ [x]).length, by rw [List.take_length]; simpa using h⟩
    -- A step adds at most one label, so what precedes the last label was reached before it.
    · have hgrow : (sh.run body (start body s w) (sched ++ [x])).hist =
            (sh.run body (start body s w) sched).hist ∨
          ∃ l', (sh.run body (start body s w) (sched ++ [x])).hist =
            (sh.run body (start body s w) sched).hist ++ [l'] := by
        rw [run_snoc]
        generalize sh.run body (start body s w) sched = c
        cases x with
        | env e => exact Or.inr ⟨_, rfl⟩
        | move =>
          cases hcur : c.cur with
          | ret s => exact Or.inl (by simp only [next, hcur])
          | call o k => exact Or.inr ⟨_, by simp only [next, hcur]; rfl⟩
      have hpre : ∃ post', (sh.run body (start body s w) sched).hist = pre ++ post' := by
        rcases hgrow with hg | ⟨l', hg⟩
        · exact ⟨post ++ [l], by rw [← hg, h]; simp⟩
        · rw [hg, List.concat_eq_append, ← List.append_assoc] at h
          exact ⟨post, (List.append_inj' h rfl).1⟩
      obtain ⟨post', hpost⟩ := hpre
      obtain ⟨n, hn⟩ := ih hpost
      refine ⟨min n sched.length, ?_⟩
      rw [List.take_append_of_le_length (Nat.min_le_right _ _)]
      rcases Nat.le_total n sched.length with hle | hle
      · rwa [Nat.min_eq_left hle]
      · rw [Nat.min_eq_right hle]
        rwa [List.take_of_length_le hle, ← List.take_length (l := sched)] at hn

variable (sh body) in
theorem exists_legal_moment (s : S) (w : W) (sched : List (Choice E))
    {pre post : List (Nat × Label Op Res E A)}
    (h : (sh.run body (start body s w) sched).hist = pre ++ post) :
    ∃ n, (sh.run body (start body s w) (sched.take n)).hist = pre ∧
      sh.Legal w (pre.map Prod.snd) (sh.run body (start body s w) (sched.take n)).world ∧
      sh.Legal (sh.run body (start body s w) (sched.take n)).world (post.map Prod.snd)
        (sh.run body (start body s w) sched).world := by
  obtain ⟨n, hn⟩ := exists_moment sh body s w sched h
  have hfirst := legal_hist sh body s w (sched.take n)
  have hall := legal_hist sh body s w sched
  rw [hn] at hfirst
  rw [h, List.map_append] at hall
  obtain ⟨v, hv, hrest⟩ := (sh.legal_append _ _ _ _).mp hall
  obtain rfl := Legal.unique sh hfirst hv
  exact ⟨n, hn, hfirst, hrest⟩

end Shared

end Interleave
