import Msrs.Lib.Threads
import Mathlib.Data.List.Range

/-!
# Threads that come to their end

Under a scheduler that lets a thread move again and again, a thread that does not stay blocked
(`Freed`) makes its next call (`makes_call`), gets through the round it is in (`reaches_ret`), and
so through as many rounds as it begins. If it begins only so many, it ends (`ends`). Beside them a
loop that is let move again and again goes on from stage to stage (`reaches_stage`).
-/

namespace Interleave

namespace Threads

variable {ι TOp : Type} {TRes : TOp → Type} {S R : ι → Type} {D V X E W : Type} [DecidableEq ι]
  {Op : Type} {Res : Op → Type} {A M : Type}

/-- The first `n` turns. -/
def turns (f : Nat → Turn ι D V) (n : Nat) : List (Turn ι D V) := (List.range n).map f

omit [DecidableEq ι] in
theorem turns_add (f : Nat → Turn ι D V) (n n' : Nat) :
    turns f (n + n') = turns f n ++ turns (fun i => f (n + i)) n' := by
  rw [turns, List.range_add, List.map_append, List.map_map]
  rfl

omit [DecidableEq ι] in
theorem turns_succ (f : Nat → Turn ι D V) (n : Nat) : turns f (n + 1) = turns f n ++ [f n] := by
  rw [turns_add]
  rfl

omit [DecidableEq ι] in
theorem forall_turns {P : Turn ι D V → Prop} {f : Nat → Turn ι D V} (h : ∀ n, P (f n)) (n : Nat) :
    ∀ t ∈ turns f n, P t := by
  intro t ht
  obtain ⟨k, -, rfl⟩ := List.mem_map.mp ht
  exact h k

/-- The scheduler lets thread `i` move again and again. -/
def Fair (f : Nat → Turn ι D V) (i : ι) : Prop := ∀ n, ∃ n', n ≤ n' ∧ ∃ d, f n' = .thread i d

omit [DecidableEq ι] in
theorem Fair.drop {f : Nat → Turn ι D V} {i : ι} (hf : Fair f i) (n : Nat) :
    Fair (fun k => f (n + k)) i := by
  intro k
  obtain ⟨j, hle, hturn⟩ := hf (n + k)
  obtain ⟨m, rfl⟩ := Nat.exists_eq_add_of_le (Nat.le_trans (Nat.le_add_right n k) hle)
  exact ⟨m, by omega, hturn⟩

variable {T : Threads ι TOp TRes S R D V X E W} {sh : Shared Op Res E A W}
  {body : Nat → M → Prog Op Res M} {m : System Op Res E A W M ι TOp TRes S R X}
  {f : Nat → Turn ι D V} {i : ι}

theorem later_turns {J : System Op Res E A W M ι TOp TRes S R X → Prop}
    (h : ∀ n, J (T.run sh body m (turns f n))) (n n' : Nat) :
    J (T.run sh body (T.run sh body m (turns f n)) (turns (fun k => f (n + k)) n')) := by
  rw [← run_append, ← turns_add]
  exact h (n + n')

/-- Thread `i` makes the call `c` and goes on with `q`. -/
structure Makes (i : ι) (c : Call TOp TRes) (q : Prog TOp TRes (S i ⊕ R i))
    (p p' : Pool ι TOp TRes S R X) : Prop where
  cur : p'.cur i = q
  ended : p'.ended i = p.ended i
  rounds : p'.rounds i = p.rounds i
  calls : callsOf i p'.trace = callsOf i p.trace ++ [c]

theorem Stays.makes {c : Call TOp TRes} {q : Prog TOp TRes (S i ⊕ R i)}
    {p p' p'' : Pool ι TOp TRes S R X} (h : Stays i p p') (h' : Makes i c q p' p'') :
    Makes i c q p p'' :=
  ⟨h'.cur, h'.ended.trans h.ended, h'.rounds.trans h.rounds, h.calls ▸ h'.calls⟩

variable (T sh body) in
/-- Up to its next turn a thread stays where it is. -/
theorem next_turn (m : System Op Res E A W M ι TOp TRes S R X) (hf : Fair f i) :
    ∃ n d, f n = .thread i d ∧ Stays i m.pool (T.run sh body m (turns f n)).pool := by
  obtain ⟨wait, -, d, hturn⟩ := hf 0
  induction wait generalizing m f with
  | zero => exact ⟨0, d, hturn, .rfl⟩
  | succ wait ih =>
    have hlater (h0 : Stays i m.pool (T.next sh body m (f 0)).pool) :
        ∃ n d, f n = .thread i d ∧ Stays i m.pool (T.run sh body m (turns f n)).pool := by
      obtain ⟨n, d', hn, hstays⟩ := ih (T.next sh body m (f 0)) (hf.drop 1) (by rwa [Nat.add_comm])
      refine ⟨1 + n, d', hn, h0.trans ?_⟩
      rw [turns_add, run_append]
      exact hstays
    cases h0 : f 0 with
    | loop => exact hlater (h0 ▸ .rfl)
    | ambient v => exact hlater (h0 ▸ .rfl)
    | thread j d₀ =>
      by_cases hj : i = j
      · subst hj
        exact ⟨0, d₀, h0, .rfl⟩
      · exact hlater (h0 ▸ (T.moves_move m.loop.world m.pool j d₀).stays hj)

/-- Whatever thread `i` calls next, it is not blocked. -/
def Unblocked (T : Threads ι TOp TRes S R D V X E W) (i : ι)
    (m : System Op Res E A W M ι TOp TRes S R X) : Prop :=
  ∀ d o k, m.pool.ended i = none → m.pool.cur i = .call o k →
    (T.perform i m.loop.world m.pool.shared m.pool.ended d o).isSome = true

variable (T sh body) in
theorem next_call {o : TOp} {k : TRes o → Prog TOp TRes (S i ⊕ R i)} (d : D)
    (hrunning : m.pool.ended i = none) (hcur : m.pool.cur i = .call o k)
    (hgo : Unblocked T i m) :
    ∃ r, Makes i ⟨o, r⟩ (k r) m.pool (T.next sh body m (.thread i d)).pool := by
  obtain ⟨⟨r, x, e⟩, hperform⟩ := Option.isSome_iff_exists.mp (hgo d o k hrunning hcur)
  refine ⟨r, ?_⟩
  have hmove : (T.next sh body m (.thread i d)).pool = m.pool.record i ⟨o, r⟩ x (k r) := by
    simp [next, move, hrunning, hcur, hperform]
  rw [hmove]
  exact ⟨Function.update_self _ _ _, .refl _, .refl _, by simp [callsOf_self, Pool.record]⟩

variable (T sh body) in
theorem stays_or_makes {o : TOp} {k : TRes o → Prog TOp TRes (S i ⊕ R i)} (t : Turn ι D V)
    (hcur : m.pool.cur i = .call o k) :
    Stays i m.pool (T.next sh body m t).pool ∨
      ∃ r, Makes i ⟨o, r⟩ (k r) m.pool (T.next sh body m t).pool := by
  cases t with
  | loop | ambient v => exact Or.inl .rfl
  | thread j d =>
    have hmoves := T.moves_move m.loop.world m.pool j d
    by_cases hj : i = j
    · subst hj
      change Stays i m.pool (T.move m.loop.world m.pool i d).1 ∨
        ∃ r, Makes i ⟨o, r⟩ (k r) m.pool (T.move m.loop.world m.pool i d).1
      generalize T.move m.loop.world m.pool i d = a at hmoves
      obtain ⟨p', e⟩ := a
      cases hmoves with
      | stay => exact Or.inl .rfl
      | round s _ hret | exit r _ hret => cases hcur.symm.trans hret
      | call d k' r x e _ hcur' _ =>
        cases hcur.symm.trans hcur'
        exact Or.inr ⟨r, Function.update_self _ _ _, .refl _, .refl _, by
          simp [callsOf_self]⟩
    · exact Or.inl (hmoves.stays hj)

variable (T sh body m f i) in
/-- If a thread stays where it is for good, then from some moment on it is not blocked. -/
def Released : Prop :=
  (∀ n, Stays i m.pool (T.run sh body m (turns f n)).pool) →
    ∃ n, ∀ n', n ≤ n' → Unblocked T i (T.run sh body m (turns f n'))

theorem Released.of_idle (h : m.pool.ended i = none → ∃ a, m.pool.cur i = .ret a) :
    Released T sh body m f i := by
  refine fun hstays => ⟨0, fun n _ d o k hrunning hcur => ?_⟩
  obtain ⟨a, ha⟩ := h ((hstays n).ended.symm.trans hrunning)
  cases hcur.symm.trans ((hstays n).cur.trans ha)

theorem Released.of_call {o : TOp} {k : TRes o → Prog TOp TRes (S i ⊕ R i)}
    (hcur : m.pool.cur i = .call o k)
    (h : (∀ n, Stays i m.pool (T.run sh body m (turns f n)).pool) →
      ∃ n, ∀ n', n ≤ n' → ∀ d, (T.perform i (T.run sh body m (turns f n')).loop.world
        (T.run sh body m (turns f n')).pool.shared (T.run sh body m (turns f n')).pool.ended d
        o).isSome = true) :
    Released T sh body m f i := by
  intro hstays
  obtain ⟨n, hn⟩ := h hstays
  refine ⟨n, fun n' hn' d o' k' _ hcur' => ?_⟩
  cases ((hstays n').cur.trans hcur).symm.trans hcur'
  exact hn n' hn' d

variable (T sh body m f i) in
/-- Wherever a thread gets, it does not stay blocked. -/
def Freed : Prop :=
  ∀ n, Released T sh body (T.run sh body m (turns f n)) (fun k => f (n + k)) i

theorem Freed.of_unblocked (h : ∀ n, Unblocked T i (T.run sh body m (turns f n))) :
    Freed T sh body m f i := fun n _ => ⟨0, fun n' _ => later_turns h n n'⟩

theorem Freed.here (h : Freed T sh body m f i) : Released T sh body m f i := by
  simpa [turns] using h 0

theorem Freed.drop (h : Freed T sh body m f i) (n : Nat) :
    Freed T sh body (T.run sh body m (turns f n)) (fun k => f (n + k)) i := by
  intro n'
  simpa only [turns_add, run_append, Nat.add_assoc] using h (n + n')

/-- A call is made: if the thread stayed at it for good it would not be blocked for good. -/
theorem makes_call {o : TOp} {k : TRes o → Prog TOp TRes (S i ⊕ R i)}
    (hgo : Released T sh body m f i) (hf : Fair f i) (hrunning : m.pool.ended i = none)
    (hcur : m.pool.cur i = .call o k) :
    ∃ n r, Makes i ⟨o, r⟩ (k r) m.pool (T.run sh body m (turns f n)).pool := by
  by_contra hnever
  have hstays (n : Nat) : Stays i m.pool (T.run sh body m (turns f n)).pool := by
    induction n with
    | zero => exact .rfl
    | succ n ih =>
      have hsucc : T.run sh body m (turns f (n + 1)) =
          T.next sh body (T.run sh body m (turns f n)) (f n) := by rw [turns_succ, run_snoc]
      rcases stays_or_makes T sh body (f n) (ih.cur.trans hcur) with hstays | ⟨r, hmakes⟩
      · exact hsucc ▸ ih.trans hstays
      · exact absurd ⟨n + 1, r, hsucc ▸ ih.makes hmakes⟩ hnever
  obtain ⟨n, hfree⟩ := hgo hstays
  obtain ⟨n', hle, d, hturn⟩ := hf n
  obtain ⟨r, hmakes⟩ := next_call T sh body d ((hstays n').ended.trans hrunning)
    ((hstays n').cur.trans hcur) (hfree n' hle)
  rw [← hturn, ← run_snoc, ← turns_succ] at hmakes
  exact hnever ⟨n' + 1, r, (hstays n').makes hmakes⟩

/-- The round under way comes to its end. The induction is on what is left of it. -/
theorem reaches_ret (hgo : Freed T sh body m f i) (hf : Fair f i)
    (hrunning : m.pool.ended i = none) :
    ∃ n a, (T.run sh body m (turns f n)).pool.cur i = .ret a ∧
      (T.run sh body m (turns f n)).pool.ended i = none ∧
      (T.run sh body m (turns f n)).pool.rounds i = m.pool.rounds i := by
  obtain ⟨q, hq⟩ : ∃ q, m.pool.cur i = q := ⟨_, rfl⟩
  induction q generalizing m f with
  | ret a => exact ⟨0, a, hq, hrunning, rfl⟩
  | call o k ih =>
    obtain ⟨n, r, hmakes⟩ := makes_call hgo.here hf hrunning hq
    obtain ⟨n', a, hcur, hended, hrounds⟩ :=
      ih r (hgo.drop n) (hf.drop n) (hmakes.ended.trans hrunning) hmakes.cur
    refine ⟨n + n', a, ?_⟩
    rw [turns_add, run_append]
    exact ⟨hcur, hended, hrounds.trans hmakes.rounds⟩

theorem ends_or_repeats (hgo : Freed T sh body m f i) (hf : Fair f i)
    (hrunning : m.pool.ended i = none) :
    ∃ n, ((T.run sh body m (turns f n)).pool.ended i).isSome = true ∨
      (T.run sh body m (turns f n)).pool.ended i = none ∧
        (T.run sh body m (turns f n)).pool.rounds i = m.pool.rounds i + 1 := by
  obtain ⟨n, a, hret, hended, hrounds⟩ := reaches_ret hgo hf hrunning
  obtain ⟨n', d, hturn, hstays⟩ :=
    next_turn T sh body (T.run sh body m (turns f n)) (hf.drop n)
  refine ⟨n + n' + 1, ?_⟩
  rw [turns_succ, run_snoc, turns_add, run_append, hturn]
  have hcur := hstays.cur.trans hret
  have hended' := hstays.ended.trans hended
  have hrounds' := hstays.rounds.trans hrounds
  generalize T.run sh body (T.run sh body m (turns f n)) _ = m' at hcur hended' hrounds'
  cases a with
  | inl s =>
    refine Or.inr ⟨?_, ?_⟩
    · simp [next, move, hended', hcur, beginRound]
    · simp [next, move, hended', hcur, hrounds', beginRound]
  | inr r =>
    refine Or.inl ?_
    simp [next, move, hended', hcur, leave]

theorem ends_of_left (bound left : Nat) (hleft : bound - m.pool.rounds i = left)
    (hgo : Freed T sh body m f i)
    (hbound : ∀ n, (T.run sh body m (turns f n)).pool.rounds i ≤ bound) (hf : Fair f i) :
    ∃ n, ((T.run sh body m (turns f n)).pool.ended i).isSome = true := by
  induction left using Nat.strong_induction_on generalizing m f with
  | _ left ih =>
    cases hended : m.pool.ended i with
    | some r => exact ⟨0, by simp [turns, hended]⟩
    | none =>
      obtain ⟨n, hn | ⟨-, hmore⟩⟩ := ends_or_repeats hgo hf hended
      · exact ⟨n, hn⟩
      · have hle := hbound n
        obtain ⟨n', hn'⟩ := ih _ (by omega) rfl (hgo.drop n)
          (later_turns (J := fun m => m.pool.rounds i ≤ bound) hbound n) (hf.drop n)
        refine ⟨n + n', ?_⟩
        rw [turns_add, run_append]
        exact hn'

theorem ended_later {r : R i} {n n' : Nat} (hle : n ≤ n')
    (h : (T.run sh body m (turns f n)).pool.ended i = some r) :
    (T.run sh body m (turns f n')).pool.ended i = some r := by
  obtain ⟨k, rfl⟩ := Nat.exists_eq_add_of_le hle
  rw [turns_add, run_append]
  exact ended_run T sh body h _

/-- **A thread ends** that is let move again and again, does not stay blocked, and begins no more
than `bound` rounds. -/
theorem ends_of_freed (bound : Nat) (hgo : Freed T sh body m f i)
    (hbound : ∀ n, (T.run sh body m (turns f n)).pool.rounds i ≤ bound) (hf : Fair f i) :
    ∃ n r, ∀ n', n ≤ n' → (T.run sh body m (turns f n')).pool.ended i = some r := by
  obtain ⟨n, hn⟩ := ends_of_left bound _ rfl hgo hbound hf
  obtain ⟨r, hr⟩ := Option.isSome_iff_exists.mp hn
  exact ⟨n, r, fun n' hle => ended_later hle hr⟩

/-- A thread ends that, from some time on, is never blocked and has begun no more than `bound`
rounds. -/
theorem ends (n : Nat) (bound : Nat)
    (hgo : ∀ n', n ≤ n' → Unblocked T i (T.run sh body m (turns f n')))
    (hbound : ∀ n', n ≤ n' → (T.run sh body m (turns f n')).pool.rounds i ≤ bound)
    (hf : Fair f i) :
    ∃ n' r, n ≤ n' ∧ ∀ l, n' ≤ l → (T.run sh body m (turns f l)).pool.ended i = some r := by
  have hfrom {J : System Op Res E A W M ι TOp TRes S R X → Prop}
      (h : ∀ n', n ≤ n' → J (T.run sh body m (turns f n'))) (k : Nat) :
      J (T.run sh body (T.run sh body m (turns f n)) (turns (fun l => f (n + l)) k)) := by
    rw [← run_append, ← turns_add]
    exact h _ (Nat.le_add_right n k)
  obtain ⟨k, r, hk⟩ := ends_of_freed bound (.of_unblocked (hfrom hgo))
    (hfrom (J := fun m => m.pool.rounds i ≤ bound) hbound) (hf.drop n)
  have hr := hk k (Nat.le_refl k)
  rw [← run_append, ← turns_add] at hr
  exact ⟨n + k, r, Nat.le_add_right n k, fun l hl => ended_later hl hr⟩

/-! ## The loop beside them -/

/-- The scheduler lets the loop move again and again. -/
def LoopFair (f : Nat → Turn ι D V) : Prop := ∀ n, ∃ n', n ≤ n' ∧ f n' = .loop

omit [DecidableEq ι] in
theorem LoopFair.drop (hf : LoopFair f) (n : Nat) : LoopFair fun k => f (n + k) := by
  intro k
  obtain ⟨j, hle, hturn⟩ := hf (n + k)
  obtain ⟨l, rfl⟩ := Nat.exists_eq_add_of_le (Nat.le_trans (Nat.le_add_right n k) hle)
  exact ⟨l, by omega, hturn⟩

variable (T sh body) in
theorem loop_rests (m : System Op Res E A W M ι TOp TRes S R X) {t : Turn ι D V} (ht : t ≠ .loop) :
    (T.next sh body m t).loop.stage = m.loop.stage ∧
      (T.next sh body m t).loop.cur = m.loop.cur := by
  cases t with
  | loop => exact absurd rfl ht
  | ambient v => exact ⟨rfl, rfl⟩
  | thread j d =>
    show (sh.run body m.loop (effect (T.move m.loop.world m.pool j d).2)).stage = _ ∧
      (sh.run body m.loop (effect (T.move m.loop.world m.pool j d).2)).cur = _
    cases (T.move m.loop.world m.pool j d).2 <;> exact ⟨rfl, rfl⟩

variable (T sh body) in
theorem next_loop (m : System Op Res E A W M ι TOp TRes S R X) (hf : LoopFair f) :
    ∃ n, f n = .loop ∧ (T.run sh body m (turns f n)).loop.stage = m.loop.stage ∧
      (T.run sh body m (turns f n)).loop.cur = m.loop.cur := by
  obtain ⟨wait, -, hturn⟩ := hf 0
  induction wait generalizing m f with
  | zero => exact ⟨0, hturn, rfl, rfl⟩
  | succ wait ih =>
    by_cases h0 : f 0 = .loop
    · exact ⟨0, h0, rfl, rfl⟩
    · obtain ⟨hstage, hcur⟩ := loop_rests T sh body m h0
      obtain ⟨n, hn, hstage', hcur'⟩ :=
        ih (T.next sh body m (f 0)) (hf.drop 1) (by rwa [Nat.add_comm])
      refine ⟨1 + n, hn, ?_⟩
      rw [turns_add, run_append]
      exact ⟨hstage'.trans hstage, hcur'.trans hcur⟩

variable (T sh body) in
/-- The stage under way ends. The induction is on what is left of it. -/
theorem next_stage (m : System Op Res E A W M ι TOp TRes S R X) (hf : LoopFair f) :
    ∃ n, (T.run sh body m (turns f n)).loop.stage = m.loop.stage + 1 := by
  obtain ⟨p, hp⟩ : ∃ p, m.loop.cur = p := ⟨_, rfl⟩
  induction p generalizing m f with
  | ret s =>
    obtain ⟨n, hturn, hstage, hcur⟩ := next_loop T sh body m hf
    refine ⟨n + 1, ?_⟩
    rw [turns_succ, run_snoc, hturn, ← hstage]
    simp [next, Shared.next, hcur, hp]
  | call o k ih =>
    obtain ⟨n, hturn, hstage, hcur⟩ := next_loop T sh body m hf
    have hnext : (T.run sh body m (turns f (n + 1))).loop.stage = m.loop.stage ∧ ∃ r,
        (T.run sh body m (turns f (n + 1))).loop.cur = k r := by
      rw [turns_succ, run_snoc, hturn, ← hstage]
      simp [next, Shared.next, hcur, hp]
    obtain ⟨hsame, r, hleft⟩ := hnext
    obtain ⟨n', hn'⟩ := ih r _ (hf.drop (n + 1)) hleft
    refine ⟨n + 1 + n', ?_⟩
    rw [turns_add, run_append, hn', hsame]

variable (T sh body) in
/-- **The loop goes on.** Beside any threads, a loop that is let move again and again reaches every
stage to come. -/
theorem reaches_stage (m : System Op Res E A W M ι TOp TRes S R X) (hf : LoopFair f) {k : Nat}
    (hk : m.loop.stage ≤ k) : ∃ n, (T.run sh body m (turns f n)).loop.stage = k := by
  induction k, hk using Nat.le_induction with
  | base => exact ⟨0, rfl⟩
  | succ k _ ih =>
    obtain ⟨n, hn⟩ := ih
    obtain ⟨n', hn'⟩ := next_stage T sh body (T.run sh body m (turns f n)) (hf.drop n)
    refine ⟨n + n', ?_⟩
    rw [turns_add, run_append, hn', hn]

/-! ## Schedules -/

omit [DecidableEq ι] in
/-- The threads of a list in turn. -/
def inTurn (j : ι) (js : List ι) (d : D) (n : Nat) : Turn ι D V :=
  .thread ((j :: js).getD (n % (j :: js).length) j) d

omit [DecidableEq ι] in
theorem fair_inTurn {j : ι} {js : List ι} (d : D) (hi : i ∈ j :: js) :
    Fair (inTurn (V := V) j js d) i := by
  intro n
  obtain ⟨k, hk, rfl⟩ := List.getElem_of_mem hi
  refine ⟨(j :: js).length * n + k, ?_, d, ?_⟩
  · have hle := Nat.le_mul_of_pos_left n (Nat.zero_lt_of_lt hk)
    omega
  · have hmod : ((j :: js).length * n + k) % (j :: js).length = k := by
      rw [Nat.mul_add_mod, Nat.mod_eq_of_lt hk]
    rw [inTurn, hmod, List.getD_eq_getElem?_getD, List.getElem?_eq_getElem hk, Option.getD_some]

end Threads

end Interleave
