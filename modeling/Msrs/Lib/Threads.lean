import Msrs.Lib.Progress
import Mathlib.Logic.Function.Basic

/-!
# Threads beside a staged loop

The environment of a staged loop taken apart: a family of threads, each with a program of its own
over operations of its own. An operation may block, it may change what the threads share among
themselves, and it may be an action on the world of the loop. The scheduler lets the loop move,
lets the world move on its own, or lets one thread move.

**Projection** (`run_loop`). To the loop this is an environment like any other: what has become of
it is one of its runs, so what holds of every run of the loop holds beside any threads.

**What a thread has done** (`at_run`). The calls of each thread are those of its routine, round
after round.

**Progress** (`ends`). A thread that is let move again and again, never stays blocked and begins
only so many rounds comes to its end.
-/

namespace Interleave

/-- The code of a thread: what it does first, and the loop body it then repeats, each time from
what the time before left, until it breaks with a result. -/
structure Routine (Op : Type) (Res : Op → Type) (S R : Type) where
  first : Prog Op Res (S ⊕ R)
  again : S → Prog Op Res (S ⊕ R)

namespace Routine

variable {Op : Type} {Res : Op → Type} {S R : Type}

/-- Having begun the loop body `n` times and made the calls `cs`, the thread stands at `q`. -/
inductive At (t : Routine Op Res S R) : Nat → List (Call Op Res) → Prog Op Res (S ⊕ R) → Prop
  | first {cs : List (Call Op Res)} {q : Prog Op Res (S ⊕ R)} (h : t.first.Follows cs q) :
      At t 0 cs q
  | again {n : Nat} {cs ds : List (Call Op Res)} {s : S} {q : Prog Op Res (S ⊕ R)}
      (hcs : At t n cs (.ret (.inl s))) (h : (t.again s).Follows ds q) : At t (n + 1) (cs ++ ds) q

variable {t : Routine Op Res S R} {n : Nat} {cs : List (Call Op Res)}

theorem At.snoc {o : Op} {k : Res o → Prog Op Res (S ⊕ R)} (h : t.At n cs (.call o k))
    (r : Res o) : t.At n (cs ++ [⟨o, r⟩]) (k r) := by
  cases h with
  | first h => exact .first (h.snoc r)
  | again hcs h =>
    rw [List.append_assoc]
    exact .again hcs (h.snoc r)

theorem At.round {s : S} (h : t.At n cs (.ret (.inl s))) : t.At (n + 1) cs (t.again s) := by
  simpa using At.again h (show (t.again s).Follows [] (t.again s) from rfl)

theorem At.within {P : Op → Prop} {q : Prog Op Res (S ⊕ R)} (hfirst : t.first.Within P)
    (hagain : ∀ s, (t.again s).Within P) (h : t.At n cs q) : q.Within P := by
  cases h with
  | first h => exact hfirst.of_follows h
  | again hcs h => exact (hagain _).of_follows h

theorem At.forall_calls {P : Op → Prop} {q : Prog Op Res (S ⊕ R)} (hfirst : t.first.Within P)
    (hagain : ∀ s, (t.again s).Within P) (h : t.At n cs q) : ∀ c ∈ cs, P c.1 := by
  induction h with
  | first h => exact hfirst.follows h
  | again hcs h ih => exact List.forall_mem_append.mpr ⟨ih, (hagain _).follows h⟩

end Routine

/-- A family of threads over the operations `Op`. Thread `i` keeps an `S i` between two rounds and
ends with an `R i`. -/
structure Threads (ι Op : Type) (Res : Op → Type) (S R : ι → Type) (D V X E W : Type) where
  routine : ∀ i, Routine Op Res (S i) (R i)
  /-- What a thread's operation comes to, given the world, what the threads share, the threads that
  have ended and the scheduler's decision: its result, what the threads share now and an action on
  the world. `none` while the operation blocks. -/
  perform : ι → W → X → (∀ i, Option (R i)) → D → (o : Op) → Option (Res o × X × Option E)
  /-- What the end of a thread does. -/
  exit : (i : ι) → R i → X → X × Option E
  /-- What the world does on its own. -/
  ambient : V → E

/-- The threads at a moment. -/
structure Pool (ι Op : Type) (Res : Op → Type) (S R : ι → Type) (X : Type) where
  shared : X
  cur : ∀ i, Prog Op Res (S i ⊕ R i)
  ended : ∀ i, Option (R i)
  /-- How often each thread has begun its loop body. -/
  rounds : ι → Nat
  /-- The calls of all threads, in order. -/
  trace : List (ι × Call Op Res)

/-- One choice of the scheduler. -/
inductive Threads.Turn (ι D V : Type) : Type where
  | loop
  | ambient (v : V)
  | thread (i : ι) (d : D)

variable {ι TOp : Type} {TRes : TOp → Type} {S R : ι → Type} {D V X E W : Type} [DecidableEq ι]

/-- The calls of thread `i`. -/
def callsOf (i : ι) (trace : List (ι × Call TOp TRes)) : List (Call TOp TRes) :=
  trace.filterMap fun x => if x.1 = i then some x.2 else none

@[simp] theorem callsOf_nil (i : ι) : callsOf i ([] : List (ι × Call TOp TRes)) = [] := rfl

@[simp] theorem callsOf_append (i : ι) (tr tr' : List (ι × Call TOp TRes)) :
    callsOf i (tr ++ tr') = callsOf i tr ++ callsOf i tr' := List.filterMap_append

theorem callsOf_self (i : ι) (c : Call TOp TRes) : callsOf i [(i, c)] = [c] := by
  simp [callsOf]

theorem callsOf_of_ne {i j : ι} (h : j ≠ i) (c : Call TOp TRes) : callsOf i [(j, c)] = [] := by
  simp [callsOf, h]

theorem mem_callsOf {i : ι} {trace : List (ι × Call TOp TRes)} {c : Call TOp TRes} :
    c ∈ callsOf i trace ↔ (i, c) ∈ trace := by
  rw [callsOf, List.mem_filterMap]
  refine ⟨fun h => ?_, fun h => ⟨(i, c), h, if_pos rfl⟩⟩
  obtain ⟨⟨j, c'⟩, hmem, hc⟩ := h
  by_cases hj : j = i
  · subst hj
    obtain rfl : c' = c := by simpa using hc
    exact hmem
  · simp [hj] at hc

/-- What only thread `i` does is read off its calls. -/
theorem filterMap_callsOf {β : Type} {f : Call TOp TRes → Option β} {i : ι}
    {trace : List (ι × Call TOp TRes)} (h : ∀ j c, (j, c) ∈ trace → j ≠ i → f c = none) :
    (trace.map Prod.snd).filterMap f = (callsOf i trace).filterMap f := by
  induction trace with
  | nil => rfl
  | cons x trace ih =>
    obtain ⟨j, c⟩ := x
    have hrest := ih fun j' c' hmem => h j' c' (List.mem_cons_of_mem _ hmem)
    by_cases hj : j = i
    · subst hj
      have hcons : callsOf j ((j, c) :: trace) = c :: callsOf j trace := by simp [callsOf]
      rw [hcons, List.map_cons, List.filterMap_cons, List.filterMap_cons, hrest]
    · have hcons : callsOf i ((j, c) :: trace) = callsOf i trace := by simp [callsOf, hj]
      rw [hcons, List.map_cons, List.filterMap_cons, h j c List.mem_cons_self hj, hrest]

namespace Threads

variable (T : Threads ι TOp TRes S R D V X E W)

/-- Before the threads have done anything. -/
def start (x : X) : Pool ι TOp TRes S R X :=
  { shared := x, cur := fun i => (T.routine i).first, ended := fun _ => none,
    rounds := fun _ => 0, trace := [] }

/-- A thread begins its loop body. -/
def beginRound (p : Pool ι TOp TRes S R X) (i : ι) (s : S i) : Pool ι TOp TRes S R X :=
  { p with
    cur := Function.update p.cur i ((T.routine i).again s)
    rounds := Function.update p.rounds i (p.rounds i + 1) }

/-- A thread ends. -/
def leave (p : Pool ι TOp TRes S R X) (i : ι) (r : R i) : Pool ι TOp TRes S R X :=
  { p with
    shared := (T.exit i r p.shared).1
    ended := Function.update p.ended i (some r) }

end Threads

/-- A thread has performed `o` and goes on with `q`. -/
def Pool.record (p : Pool ι TOp TRes S R X) (i : ι) (c : Call TOp TRes) (x : X)
    (q : Prog TOp TRes (S i ⊕ R i)) : Pool ι TOp TRes S R X :=
  { p with shared := x, cur := Function.update p.cur i q, trace := p.trace ++ [(i, c)] }

namespace Threads

/-- Thread `i` stays where it is. -/
structure Stays (i : ι) (p p' : Pool ι TOp TRes S R X) : Prop where
  cur : p'.cur i = p.cur i
  ended : p'.ended i = p.ended i
  rounds : p'.rounds i = p.rounds i
  calls : callsOf i p'.trace = callsOf i p.trace

theorem Stays.rfl {i : ι} {p : Pool ι TOp TRes S R X} : Stays i p p :=
  ⟨.refl _, .refl _, .refl _, .refl _⟩

theorem Stays.trans {i : ι} {p p' p'' : Pool ι TOp TRes S R X} (h : Stays i p p')
    (h' : Stays i p' p'') :
    Stays i p p'' :=
  ⟨h'.cur.trans h.cur, h'.ended.trans h.ended, h'.rounds.trans h.rounds, h'.calls.trans h.calls⟩

variable (T : Threads ι TOp TRes S R D V X E W)

/-- The next move of thread `i`, with its action on the world. -/
def move (w : W) (p : Pool ι TOp TRes S R X) (i : ι) (d : D) :
    Pool ι TOp TRes S R X × Option E :=
  match p.ended i with
  | some _ => (p, none)
  | none =>
    match p.cur i with
    | .ret (.inl s) => (T.beginRound p i s, none)
    | .ret (.inr r) => (T.leave p i r, (T.exit i r p.shared).2)
    | .call o k =>
      match T.perform i w p.shared p.ended d o with
      | none => (p, none)
      | some (r, x, e) => (p.record i ⟨o, r⟩ x (k r), e)

/-- Everything a move of thread `i` can come to. -/
inductive Moves (w : W) (p : Pool ι TOp TRes S R X) (i : ι) :
    Pool ι TOp TRes S R X → Option E → Prop
  /-- It has ended, or its operation blocks. -/
  | stay : Moves w p i p none
  | round (s : S i) (hrunning : p.ended i = none) (hcur : p.cur i = .ret (.inl s)) :
      Moves w p i (T.beginRound p i s) none
  | exit (r : R i) (hrunning : p.ended i = none) (hcur : p.cur i = .ret (.inr r)) :
      Moves w p i (T.leave p i r) (T.exit i r p.shared).2
  | call {o : TOp} (d : D) (k : TRes o → Prog TOp TRes (S i ⊕ R i)) (r : TRes o) (x : X)
      (e : Option E) (hrunning : p.ended i = none) (hcur : p.cur i = .call o k)
      (hperform : T.perform i w p.shared p.ended d o = some (r, x, e)) :
      Moves w p i (p.record i ⟨o, r⟩ x (k r)) e

theorem moves_move (w : W) (p : Pool ι TOp TRes S R X) (i : ι) (d : D) :
    T.Moves w p i (T.move w p i d).1 (T.move w p i d).2 := by
  unfold move
  cases he : p.ended i with
  | some r => exact .stay
  | none =>
    cases hcur : p.cur i with
    | ret a =>
      cases a with
      | inl s => exact .round s he hcur
      | inr r => exact .exit r he hcur
    | call o k =>
      cases hp : T.perform i w p.shared p.ended d o with
      | none => simpa only [hp] using Moves.stay
      | some a =>
        obtain ⟨r, x, e⟩ := a
        simpa only [hp] using Moves.call d k r x e he hcur hp

theorem Moves.stays {T : Threads ι TOp TRes S R D V X E W} {w : W}
    {p p' : Pool ι TOp TRes S R X} {i j : ι} {e : Option E} (h : T.Moves w p j p' e)
    (hne : i ≠ j) : Stays i p p' := by
  cases h with
  | stay => exact .rfl
  | round s _ _ =>
    exact ⟨Function.update_of_ne hne _ _, .refl _, Function.update_of_ne hne _ _, .refl _⟩
  | exit r _ _ => exact ⟨.refl _, Function.update_of_ne hne _ _, .refl _, .refl _⟩
  | call d k r x e _ _ _ =>
    refine ⟨Function.update_of_ne hne _ _, .refl _, .refl _, ?_⟩
    simp [Pool.record, callsOf_of_ne (Ne.symm hne)]

theorem Moves.monotone {T : Threads ι TOp TRes S R D V X E W} {w : W}
    {p p' : Pool ι TOp TRes S R X} {j : ι} {e : Option E} (h : T.Moves w p j p' e) :
    (∀ i r, p.ended i = some r → p'.ended i = some r) ∧ (∀ i, p.rounds i ≤ p'.rounds i) ∧
      p.trace <+: p'.trace := by
  cases h with
  | stay => exact ⟨fun _ _ h => h, fun _ => Nat.le_refl _, List.prefix_rfl⟩
  | round s _ _ =>
    refine ⟨fun _ _ h => h, ?_, List.prefix_rfl⟩
    intro i
    by_cases hi : i = j
    · subst hi
      simp [beginRound]
    · simp [beginRound, Function.update_of_ne hi]
  | exit r hrunning _ =>
    refine ⟨?_, fun _ => Nat.le_refl _, List.prefix_rfl⟩
    intro i r' h
    have hi : i ≠ j := by
      intro hi
      subst hi
      exact absurd (hrunning.symm.trans h) (by simp)
    exact (Function.update_of_ne hi _ _).trans h
  | call d k r x e _ _ _ => exact ⟨fun _ _ h => h, fun _ => Nat.le_refl _, List.prefix_append _ _⟩

end Threads

/-! ## Runs -/

section Runs

variable {Op : Type} {Res : Op → Type} {A M : Type}

/-- A loop and the threads beside it. -/
structure System (Op : Type) (Res : Op → Type) (E A W M : Type) (ι TOp : Type)
    (TRes : TOp → Type) (S R : ι → Type) (X : Type) where
  loop : Shared.Config Op Res E A W M
  pool : Pool ι TOp TRes S R X

namespace Threads

variable (T : Threads ι TOp TRes S R D V X E W) (sh : Shared Op Res E A W)
  (body : Nat → M → Prog Op Res M)

/-- The action of a thread, if it is one, as the loop's environment sees it. -/
def effect (e : Option E) : List (Shared.Choice E) := (e.map Shared.Choice.env).toList

/-- One turn. -/
def next (m : System Op Res E A W M ι TOp TRes S R X) :
    Turn ι D V → System Op Res E A W M ι TOp TRes S R X
  | .loop => { m with loop := sh.next body m.loop .move }
  | .ambient v => { m with loop := sh.next body m.loop (.env (T.ambient v)) }
  | .thread i d =>
    { loop := sh.run body m.loop (effect (T.move m.loop.world m.pool i d).2)
      pool := (T.move m.loop.world m.pool i d).1 }

/-- The moment the turns lead to. -/
def run (m : System Op Res E A W M ι TOp TRes S R X) (turns : List (Turn ι D V)) :
    System Op Res E A W M ι TOp TRes S R X :=
  turns.foldl (T.next sh body) m

variable {T sh body}

@[simp] theorem run_nil (m : System Op Res E A W M ι TOp TRes S R X) : T.run sh body m [] = m :=
  rfl

theorem run_snoc (m : System Op Res E A W M ι TOp TRes S R X) (turns : List (Turn ι D V))
    (t : Turn ι D V) :
    T.run sh body m (turns ++ [t]) = T.next sh body (T.run sh body m turns) t := by
  simp [run]

theorem run_append (m : System Op Res E A W M ι TOp TRes S R X) (turns later : List (Turn ι D V)) :
    T.run sh body m (turns ++ later) = T.run sh body (T.run sh body m turns) later :=
  List.foldl_append

variable (T sh body) in
/-- **Projection.** What has become of the loop is what becomes of it in one of its own runs; and
if the loop was not let move, it is only the environment that has. -/
theorem run_loop (m : System Op Res E A W M ι TOp TRes S R X) (turns : List (Turn ι D V)) :
    ∃ sched, (T.run sh body m turns).loop = sh.run body m.loop sched ∧
      ((∀ t ∈ turns, t ≠ .loop) → ∀ x ∈ sched, x ≠ .move) := by
  induction turns using List.reverseRecOn with
  | nil => exact ⟨[], rfl, fun _ x hx => absurd hx List.not_mem_nil⟩
  | append_singleton turns t ih =>
    obtain ⟨sched, hloop, hrest⟩ := ih
    rw [run_snoc]
    generalize T.run sh body m turns = c at hloop
    have hlast {later : List (Shared.Choice E)} (h : t ≠ .loop → ∀ x ∈ later, x ≠ .move) :
        (∀ t' ∈ turns ++ [t], t' ≠ .loop) → ∀ x ∈ sched ++ later, x ≠ .move := by
      intro hall
      obtain ⟨hturns, ht⟩ := List.forall_mem_append.mp hall
      exact List.forall_mem_append.mpr ⟨hrest hturns, h (ht t (List.mem_singleton.mpr rfl))⟩
    cases t with
    | loop =>
      refine ⟨sched ++ [.move], ?_, hlast fun h => absurd rfl h⟩
      rw [Shared.run_snoc, ← hloop]
      rfl
    | ambient v =>
      refine ⟨sched ++ [.env (T.ambient v)], ?_, hlast fun _ => by simp⟩
      rw [Shared.run_snoc, ← hloop]
      rfl
    | thread i d =>
      refine ⟨sched ++ effect (T.move c.loop.world c.pool i d).2, ?_, hlast fun _ => ?_⟩
      · rw [Shared.run_append, ← hloop]
        rfl
      · intro x hx
        obtain ⟨e, -, rfl⟩ := Option.map_eq_some_iff.mp (Option.mem_toList.mp hx)
        simp

variable (T sh body) in
/-- **The rule of invariants.** What holds at the beginning and is kept by each kind of turn holds
at every moment. The loop has to keep it only if it is let move. -/
theorem run_invariant {J : System Op Res E A W M ι TOp TRes S R X → Prop}
    {m : System Op Res E A W M ι TOp TRes S R X} {turns : List (Turn ι D V)} (h0 : J m)
    (hloop : .loop ∈ turns → ∀ m, J m → J { m with loop := sh.next body m.loop .move })
    (hambient : ∀ m v, J m → J { m with loop := sh.next body m.loop (.env (T.ambient v)) })
    (hthread : ∀ m i p e, J m → T.Moves m.loop.world m.pool i p e →
      J { loop := sh.run body m.loop (effect e), pool := p }) :
    J (T.run sh body m turns) := by
  induction turns using List.reverseRecOn with
  | nil => exact h0
  | append_singleton turns t ih =>
    rw [run_snoc]
    have hJ := ih fun hmem => hloop (List.mem_append_left _ hmem)
    cases t with
    | loop => exact hloop (List.mem_append_right _ (List.mem_singleton.mpr rfl)) _ hJ
    | ambient v => exact hambient _ v hJ
    | thread i d => exact hthread _ i _ _ hJ (T.moves_move _ _ i d)

variable (T sh body) in
theorem run_pool {J : Pool ι TOp TRes S R X → Prop}
    {m : System Op Res E A W M ι TOp TRes S R X} (h0 : J m.pool)
    (hthread : ∀ w p i p' e, J p → T.Moves w p i p' e → J p') (turns : List (Turn ι D V)) :
    J (T.run sh body m turns).pool :=
  run_invariant T sh body (J := fun m => J m.pool) h0 (fun _ _ h => h) (fun _ _ h => h)
    (fun m i p e h hmoves => hthread m.loop.world m.pool i p e h hmoves)

/-- The world after an action, if it is one. -/
def acted (sh : Shared Op Res E A W) (w : W) (e : Option E) : W :=
  match e with
  | none => w
  | some e => (sh.act w e).2

/-- The label of an action, if it is one. -/
def actLabels (sh : Shared Op Res E A W) (w : W) (e : Option E) : List (Label Op Res E A) :=
  match e with
  | none => []
  | some e => [.env e (sh.act w e).1]

variable (T sh body) in
/-- **The rule of laws.** The rule of invariants for what is said of the world, of the labels so
far and of the threads. -/
theorem run_track {J : W → List (Label Op Res E A) → Pool ι TOp TRes S R X → Prop}
    {m : System Op Res E A W M ι TOp TRes S R X} {turns : List (Turn ι D V)}
    (h0 : J m.loop.world (m.loop.hist.map Prod.snd) m.pool)
    (hcall : .loop ∈ turns → ∀ w ls p o, J w ls p →
      J (sh.handle w o).2 (ls ++ [.call ⟨o, (sh.handle w o).1⟩]) p)
    (hambient : ∀ w ls p v, J w ls p → J (sh.act w (T.ambient v)).2
      (ls ++ [.env (T.ambient v) (sh.act w (T.ambient v)).1]) p)
    (hthread : ∀ w ls p i p' e, J w ls p → T.Moves w p i p' e →
      J (acted sh w e) (ls ++ actLabels sh w e) p') :
    J (T.run sh body m turns).loop.world ((T.run sh body m turns).loop.hist.map Prod.snd)
      (T.run sh body m turns).pool := by
  refine run_invariant T sh body
    (J := fun m => J m.loop.world (m.loop.hist.map Prod.snd) m.pool) h0 ?_ ?_ ?_
  · intro hmem m hJ
    cases hcur : m.loop.cur with
    | ret s => simpa only [Shared.next, hcur] using hJ
    | call o k =>
      simp only [Shared.next, hcur, List.map_append, List.map_cons, List.map_nil]
      exact hcall hmem _ _ _ o hJ
  · intro m v hJ
    simp only [Shared.next, List.map_append, List.map_cons, List.map_nil]
    exact hambient _ _ _ v hJ
  · intro m i p e hJ hmoves
    have hnext := hthread _ _ _ i p e hJ hmoves
    cases e with
    | none => simpa [effect, acted, actLabels] using hnext
    | some e => simpa [effect, acted, actLabels, Shared.run, Shared.next] using hnext

variable (T sh body) in
theorem run_resting (m : System Op Res E A W M ι TOp TRes S R X) {turns : List (Turn ι D V)}
    (hrest : ∀ t ∈ turns, t ≠ .loop) :
    (T.run sh body m turns).loop.mem = m.loop.mem ∧
      (T.run sh body m turns).loop.calls = m.loop.calls := by
  refine run_invariant T sh body
    (J := fun m' => m'.loop.mem = m.loop.mem ∧ m'.loop.calls = m.loop.calls) ⟨rfl, rfl⟩ ?_ ?_ ?_
  · intro hmem
    exact absurd rfl (hrest _ hmem)
  · intro m' v hm'
    simpa [Shared.next, Shared.Config.calls] using hm'
  · intro m' i p e hm' _
    cases e with
    | none => simpa [effect] using hm'
    | some e => simpa [effect, Shared.run, Shared.next, Shared.Config.calls] using hm'

variable (T sh body) in
/-- **The rule of calls.** What holds of the calls made so far, and of each call made under one of
the decisions, holds of all calls. -/
theorem run_calls {Q : Call TOp TRes → Prop} {m : System Op Res E A W M ι TOp TRes S R X}
    {turns : List (Turn ι D V)} (h0 : ∀ c ∈ m.pool.trace.map Prod.snd, Q c)
    (hcall : ∀ i d w x ended o r x' e, .thread i d ∈ turns →
      T.perform i w x ended d o = some (r, x', e) → Q ⟨o, r⟩) :
    ∀ c ∈ (T.run sh body m turns).pool.trace.map Prod.snd, Q c := by
  induction turns using List.reverseRecOn with
  | nil => exact h0
  | append_singleton turns t ih =>
    rw [run_snoc]
    have hall := ih fun i d w x ended o r x' e hmem =>
      hcall i d w x ended o r x' e (List.mem_append_left _ hmem)
    generalize T.run sh body m turns = m' at hall
    cases t with
    | loop | ambient v => exact hall
    | thread i d =>
      show ∀ c ∈ (T.move m'.loop.world m'.pool i d).1.trace.map Prod.snd, Q c
      unfold move
      cases m'.pool.ended i with
      | some r => exact hall
      | none =>
        cases m'.pool.cur i with
        | ret a => cases a <;> exact hall
        | call o k =>
          cases hperform : T.perform i m'.loop.world m'.pool.shared m'.pool.ended d o with
          | none => simpa only [hperform] using hall
          | some a =>
            obtain ⟨r, x, e⟩ := a
            simp only [hperform, Pool.record, List.map_append]
            refine List.forall_mem_append.mpr ⟨hall, fun c hc => ?_⟩
            rw [List.mem_singleton.mp hc]
            exact hcall _ _ _ _ _ _ _ _ _ (List.mem_append_right _ List.mem_cons_self) hperform

variable (T sh body) in
theorem run_alone (m : System Op Res E A W M ι TOp TRes S R X) {turns : List (Turn ι D V)}
    (halone : ∀ t ∈ turns, t = .loop) : (T.run sh body m turns).pool = m.pool := by
  induction turns using List.reverseRecOn with
  | nil => rfl
  | append_singleton turns t ih =>
    obtain ⟨hturns, hlast⟩ := List.forall_mem_append.mp halone
    rw [run_snoc, hlast t (List.mem_singleton.mpr rfl)]
    exact ih hturns

/-! ## What a thread has done -/

/-- Each thread stands where its routine leads through its calls, and one that has ended is at the
end of its routine. -/
structure Follows (T : Threads ι TOp TRes S R D V X E W) (p : Pool ι TOp TRes S R X) : Prop where
  at_cur : ∀ i, (T.routine i).At (p.rounds i) (callsOf i p.trace) (p.cur i)
  ended : ∀ i r, p.ended i = some r → p.cur i = .ret (.inr r)

theorem follows_start (x : X) : T.Follows (T.start x) :=
  ⟨fun _ => .first rfl, fun _ _ h => absurd h (by simp [start])⟩

theorem Follows.moves {w : W} {p p' : Pool ι TOp TRes S R X} {j : ι} {e : Option E}
    (h : T.Follows p) (hmoves : T.Moves w p j p' e) : T.Follows p' := by
  have hother {i : ι} (hi : i ≠ j) :
      (T.routine i).At (p'.rounds i) (callsOf i p'.trace) (p'.cur i) := by
    obtain ⟨hcur, -, hrounds, hcalls⟩ := hmoves.stays hi
    rw [hcur, hrounds, hcalls]
    exact h.at_cur i
  have hended {i : ι} (hi : i ≠ j) {r : R i} (hr : p'.ended i = some r) :
      p'.cur i = .ret (.inr r) := by
    obtain ⟨hcur, he, -, -⟩ := hmoves.stays hi
    rw [hcur]
    exact h.ended i r (he ▸ hr)
  cases hmoves with
  | stay => exact h
  | round s hrunning hcur =>
    refine ⟨?_, ?_⟩
    · intro i
      by_cases hi : i = j
      · subst hi
        simp only [beginRound, Function.update_self]
        exact (hcur ▸ h.at_cur i).round
      · exact hother hi
    · intro i r hr
      by_cases hi : i = j
      · subst hi
        exact absurd (hrunning.symm.trans hr) (by simp)
      · exact hended hi hr
  | exit r hrunning hcur =>
    refine ⟨h.at_cur, ?_⟩
    intro i r' hr'
    by_cases hi : i = j
    · subst hi
      simp only [leave, Function.update_self, Option.some.injEq] at hr'
      exact hr' ▸ hcur
    · exact hended hi hr'
  | call d k r x e hrunning hcur hperform =>
    refine ⟨?_, ?_⟩
    · intro i
      by_cases hi : i = j
      · subst hi
        simp only [Pool.record, Function.update_self, callsOf_append, callsOf_self]
        exact (hcur ▸ h.at_cur i).snoc r
      · exact hother hi
    · intro i r' hr'
      by_cases hi : i = j
      · subst hi
        exact absurd (hrunning.symm.trans hr') (by simp)
      · exact hended hi hr'

variable (T sh body) in
/-- At every moment the calls of each thread are those of its routine. -/
theorem at_run {m : System Op Res E A W M ι TOp TRes S R X} (h : T.Follows m.pool)
    (turns : List (Turn ι D V)) : T.Follows (T.run sh body m turns).pool :=
  run_pool T sh body h (fun _ _ _ _ _ h hmoves => h.moves hmoves) turns

/-- Threads over operations in `P` have called only these, and call no others. -/
theorem Follows.allowed {P : ι → TOp → Prop} {p : Pool ι TOp TRes S R X} (h : T.Follows p)
    (hfirst : ∀ i, (T.routine i).first.Within (P i))
    (hagain : ∀ i s, ((T.routine i).again s).Within (P i)) :
    (∀ i c, (i, c) ∈ p.trace → P i c.1) ∧ ∀ i o k, p.cur i = .call o k → P i o := by
  refine ⟨?_, ?_⟩
  · intro i c hc
    exact (h.at_cur i).forall_calls (hfirst i) (hagain i) c (mem_callsOf.mpr hc)
  · intro i o k hcur
    have hwithin := (h.at_cur i).within (hfirst i) (hagain i)
    rw [hcur] at hwithin
    exact hwithin.1

theorem Follows.filterMap_calls {P : ι → TOp → Prop} {p : Pool ι TOp TRes S R X}
    (h : T.Follows p) (hfirst : ∀ i, (T.routine i).first.Within (P i))
    (hagain : ∀ i s, ((T.routine i).again s).Within (P i)) {β : Type} {f : Call TOp TRes → Option β}
    (j : ι) (hf : ∀ i c, i ≠ j → P i c.1 → f c = none) :
    (p.trace.map Prod.snd).filterMap f = (callsOf j p.trace).filterMap f :=
  filterMap_callsOf fun i c hc hi => hf i c hi ((h.allowed hfirst hagain).1 i c hc)

variable (T sh body) in
theorem ended_run {m : System Op Res E A W M ι TOp TRes S R X} {i : ι} {r : R i}
    (h : m.pool.ended i = some r) (turns : List (Turn ι D V)) :
    (T.run sh body m turns).pool.ended i = some r :=
  run_pool T sh body (J := fun p => p.ended i = some r) h
    (fun _ _ _ _ _ h hmoves => hmoves.monotone.1 i r h) turns

variable (T sh body) in
theorem trace_run (m : System Op Res E A W M ι TOp TRes S R X) (turns : List (Turn ι D V)) :
    m.pool.trace <+: (T.run sh body m turns).pool.trace :=
  run_pool T sh body (J := fun p => m.pool.trace <+: p.trace) List.prefix_rfl
    (fun _ _ _ _ _ h hmoves => h.trans hmoves.monotone.2.2) turns

end Threads

end Runs

end Interleave
