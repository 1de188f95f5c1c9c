/-!
# Programs that call on a shared world

A program is a tree of *calls*: it performs an operation, receives a result and goes on
depending on it, or it returns. Nothing here says what an operation does. Running a program
against a world that other parties change too is `Msrs.Lib.Interleave`; this file is about the
program alone: which sequences of calls and results it can go through, whatever the results.

* `Follows p cs q` — after the calls `cs` the program `p` has become `q`.
* `Yields p cs a` — through exactly the calls `cs` the program `p` returns `a`.
* `Within P p` — whatever it is answered, `p` performs only operations in `P`.

The first two are computed by recursion on the calls, and all three split over `bind`, so the
calls of a large program are read off the calls of its parts.

* `exec answer p w` — the program run against a platform that nobody else uses.
* `Answers answer w cs w'` — the platform gives the answers in `cs`, and goes from `w` to `w'`.
-/

namespace Interleave

/-- A program over the operations `Op`, where `o : Op` answers with a `Res o`. -/
inductive Prog (Op : Type) (Res : Op → Type) (α : Type) : Type where
  /-- Return a value. -/
  | ret (a : α)
  /-- Perform `o` and continue with its result. -/
  | call (o : Op) (k : Res o → Prog Op Res α)

/-- One performed operation with its result. -/
abbrev Call (Op : Type) (Res : Op → Type) : Type := (o : Op) × Res o

variable {Op : Type} {Res : Op → Type} {α β γ : Type}

namespace Prog

/-- Run `p`, then `f` on what it returns. -/
def bind (p : Prog Op Res α) (f : α → Prog Op Res β) : Prog Op Res β :=
  match p with
  | .ret a => f a
  | .call o k => .call o fun r => (k r).bind f

instance : Monad (Prog Op Res) where
  pure := .ret
  bind := Prog.bind

/-- The program that performs `o` and returns its result. -/
def perform (o : Op) : Prog Op Res (Res o) := .call o .ret

@[simp] theorem pure_eq (a : α) : (pure a : Prog Op Res α) = .ret a := rfl

@[simp] theorem ret_bind (a : α) (f : α → Prog Op Res β) : (Prog.ret a >>= f) = f a := rfl

@[simp] theorem call_bind (o : Op) (k : Res o → Prog Op Res α) (f : α → Prog Op Res β) :
    (Prog.call o k >>= f) = .call o fun r => k r >>= f := rfl

@[simp] theorem perform_bind (o : Op) (f : Res o → Prog Op Res β) :
    (perform o >>= f) = .call o f := rfl

/-! ## The calls a program goes through -/

/-- After the calls `cs`, the program `p` has become `q`. -/
def Follows : Prog Op Res α → List (Call Op Res) → Prog Op Res α → Prop
  | p, [], q => q = p
  | p, c :: cs, q => ∃ k, p = .call c.1 k ∧ Follows (k c.2) cs q

/-- Through the calls `cs`, the program `p` returns `a`. -/
def Yields (p : Prog Op Res α) (cs : List (Call Op Res)) (a : α) : Prop := Follows p cs (.ret a)

@[simp] theorem follows_nil (p q : Prog Op Res α) : Follows p [] q ↔ q = p := Iff.rfl

theorem follows_append (p q : Prog Op Res α) (cs ds : List (Call Op Res)) :
    Follows p (cs ++ ds) q ↔ ∃ p', Follows p cs p' ∧ Follows p' ds q := by
  induction cs generalizing p with
  | nil => simp
  | cons c cs ih =>
    simp only [List.cons_append, Follows, ih]
    refine ⟨fun h => ?_, fun h => ?_⟩
    · obtain ⟨k, hk, p', h₁, h₂⟩ := h
      exact ⟨p', ⟨k, hk, h₁⟩, h₂⟩
    · obtain ⟨p', ⟨k, hk, h₁⟩, h₂⟩ := h
      exact ⟨k, hk, p', h₁, h₂⟩

theorem Follows.snoc {p : Prog Op Res α} {cs : List (Call Op Res)} {o : Op}
    {k : Res o → Prog Op Res α} (h : Follows p cs (.call o k)) (r : Res o) :
    Follows p (cs ++ [⟨o, r⟩]) (k r) :=
  (follows_append p (k r) cs [⟨o, r⟩]).mpr ⟨_, h, k, rfl, rfl⟩

@[simp] theorem follows_ret (a : α) (cs : List (Call Op Res)) (q : Prog Op Res α) :
    Follows (.ret a) cs q ↔ cs = [] ∧ q = .ret a := by
  cases cs with
  | nil => simp
  | cons c cs => simp [Follows]

theorem follows_call (o : Op) (k : Res o → Prog Op Res α) (cs : List (Call Op Res))
    (q : Prog Op Res α) :
    Follows (.call o k) cs q ↔
      (cs = [] ∧ q = .call o k) ∨ ∃ r ds, cs = ⟨o, r⟩ :: ds ∧ Follows (k r) ds q := by
  cases cs with
  | nil => simp
  | cons c cs =>
    obtain ⟨o', r'⟩ := c
    simp only [Follows, reduceCtorEq, false_and, false_or]
    refine ⟨fun h => ?_, fun h => ?_⟩
    · obtain ⟨k', hk, h⟩ := h
      obtain ⟨rfl, hk⟩ := Prog.call.inj hk
      cases hk
      exact ⟨r', cs, rfl, h⟩
    · obtain ⟨r, ds, hc, h⟩ := h
      obtain ⟨hhead, rfl⟩ := List.cons.inj hc
      cases hhead
      exact ⟨k, rfl, h⟩

/-- A sequence is either still in its first part or has finished it. -/
theorem follows_bind {p : Prog Op Res α} {f : α → Prog Op Res β} {cs : List (Call Op Res)}
    {q : Prog Op Res β} (h : Follows (p >>= f) cs q) :
    (∃ p', Follows p cs p' ∧ q = p' >>= f) ∨
      ∃ a cs₁ cs₂, cs = cs₁ ++ cs₂ ∧ Yields p cs₁ a ∧ Follows (f a) cs₂ q := by
  induction p generalizing cs with
  | ret a => exact Or.inr ⟨a, [], cs, rfl, rfl, h⟩
  | call o k ih =>
    rw [call_bind, follows_call] at h
    rcases h with ⟨rfl, rfl⟩ | ⟨r, ds, rfl, h⟩
    · exact Or.inl ⟨_, rfl, rfl⟩
    · rcases ih r h with ⟨p', hp, rfl⟩ | ⟨a, cs₁, cs₂, rfl, h₁, h₂⟩
      · exact Or.inl ⟨p', ⟨k, rfl, hp⟩, rfl⟩
      · exact Or.inr ⟨a, ⟨o, r⟩ :: cs₁, cs₂, rfl, ⟨k, rfl, h₁⟩, h₂⟩

theorem follows_bind_call {p : Prog Op Res α} {f : α → Prog Op Res β} {cs : List (Call Op Res)}
    {o : Op} {k : Res o → Prog Op Res β} (h : Follows (p >>= f) cs (.call o k)) :
    (∃ k', Follows p cs (.call o k')) ∨
      ∃ a cs₁ cs₂, cs = cs₁ ++ cs₂ ∧ Yields p cs₁ a ∧ Follows (f a) cs₂ (.call o k) := by
  rcases follows_bind h with ⟨p', hp, hq⟩ | hright
  · cases p' with
    | ret a => exact Or.inr ⟨a, cs, [], (List.append_nil cs).symm, hp, hq⟩
    | call o' k' =>
      cases hq
      exact Or.inl ⟨k', hp⟩
  · exact Or.inr hright

theorem follows_bind_ret {p : Prog Op Res α} {f : α → Prog Op Res β} {cs : List (Call Op Res)}
    {q : Prog Op Res β} (h : Follows (p >>= f) cs q) (hf : ∀ a, ∃ b, f a = .ret b) :
    ∃ p', Follows p cs p' := by
  rcases follows_bind h with ⟨p', hp, -⟩ | ⟨a, cs₁, cs₂, rfl, h₁, h₂⟩
  · exact ⟨p', hp⟩
  · obtain ⟨b, hb⟩ := hf a
    rw [hb] at h₂
    cases cs₂ with
    | nil => exact ⟨.ret a, by rwa [List.append_nil]⟩
    | cons c cs₂ =>
      obtain ⟨k, hk, -⟩ := h₂
      cases hk

@[simp] theorem yields_ret (a b : α) (cs : List (Call Op Res)) :
    Yields (.ret a) cs b ↔ cs = [] ∧ b = a := by
  simp [Yields]

@[simp] theorem yields_call (o : Op) (k : Res o → Prog Op Res α) (cs : List (Call Op Res))
    (a : α) : Yields (.call o k) cs a ↔ ∃ r ds, cs = ⟨o, r⟩ :: ds ∧ Yields (k r) ds a := by
  simp [Yields, follows_call]

theorem yields_bind (p : Prog Op Res α) (f : α → Prog Op Res β) (cs : List (Call Op Res))
    (b : β) : Yields (p >>= f) cs b ↔
      ∃ a cs₁ cs₂, cs = cs₁ ++ cs₂ ∧ Yields p cs₁ a ∧ Yields (f a) cs₂ b := by
  induction p generalizing cs with
  | ret a =>
    simp only [ret_bind, yields_ret]
    refine ⟨fun h => ?_, fun h => ?_⟩
    · exact ⟨a, [], cs, rfl, ⟨rfl, rfl⟩, h⟩
    · obtain ⟨a', cs₁, cs₂, rfl, ⟨rfl, rfl⟩, h⟩ := h
      exact h
  | call o k ih =>
    simp only [call_bind, yields_call, ih]
    refine ⟨fun h => ?_, fun h => ?_⟩
    · obtain ⟨r, ds, rfl, a, cs₁, cs₂, rfl, h₁, h₂⟩ := h
      exact ⟨a, ⟨o, r⟩ :: cs₁, cs₂, rfl, ⟨r, cs₁, rfl, h₁⟩, h₂⟩
    · obtain ⟨a, cs₁, cs₂, rfl, ⟨r, ds, rfl, h₁⟩, h₂⟩ := h
      exact ⟨r, ds ++ cs₂, rfl, a, ds, cs₂, rfl, h₁, h₂⟩

theorem yields_bind_ret (p : Prog Op Res α) (f : α → β) (cs : List (Call Op Res)) (b : β) :
    Yields (p >>= fun a => .ret (f a)) cs b ↔ ∃ a, Yields p cs a ∧ b = f a := by
  rw [yields_bind]
  refine ⟨fun h => ?_, fun h => ?_⟩
  · obtain ⟨a, cs₁, cs₂, rfl, h₁, h₂⟩ := h
    obtain ⟨rfl, rfl⟩ := (yields_ret _ _ _).mp h₂
    exact ⟨a, by rwa [List.append_nil], rfl⟩
  · obtain ⟨a, h, rfl⟩ := h
    exact ⟨a, cs, [], (List.append_nil cs).symm, h, (yields_ret _ _ _).mpr ⟨rfl, rfl⟩⟩

/-- A program that gets an answer to every call returns. -/
theorem exists_yields (answer : ∀ o, Res o) (p : Prog Op Res α) : ∃ cs a, p.Yields cs a := by
  induction p with
  | ret a => exact ⟨[], a, rfl⟩
  | call o k ih =>
    obtain ⟨cs, a, h⟩ := ih (answer o)
    exact ⟨⟨o, answer o⟩ :: cs, a, k, rfl, h⟩

theorem Follows.exists_yields (answer : ∀ o, Res o) {p q : Prog Op Res α}
    {cs : List (Call Op Res)} (h : p.Follows cs q) : ∃ ds a, p.Yields (cs ++ ds) a := by
  obtain ⟨ds, a, hq⟩ := Prog.exists_yields answer q
  exact ⟨ds, a, (follows_append _ _ _ _).mpr ⟨q, h, hq⟩⟩

theorem Yields.unique {p : Prog Op Res α} {cs cs' ds ds' : List (Call Op Res)} {a a' : α}
    (h : p.Yields cs a) (h' : p.Yields cs' a') (heq : cs ++ ds = cs' ++ ds') :
    cs = cs' ∧ a = a' := by
  induction p generalizing cs cs' with
  | ret b =>
    obtain ⟨rfl, rfl⟩ := (yields_ret _ _ _).mp h
    obtain ⟨rfl, rfl⟩ := (yields_ret _ _ _).mp h'
    exact ⟨rfl, rfl⟩
  | call o k ih =>
    obtain ⟨r, es, rfl, hk⟩ := (yields_call _ _ _ _).mp h
    obtain ⟨r', es', rfl, hk'⟩ := (yields_call _ _ _ _).mp h'
    obtain ⟨hhead, htail⟩ := List.cons.inj heq
    cases hhead
    obtain ⟨rfl, rfl⟩ := ih r hk hk' htail
    exact ⟨rfl, rfl⟩

/-! ## Which operations a program performs -/

/-- Every operation the program may perform is in `P`. -/
def Within (P : Op → Prop) : Prog Op Res α → Prop
  | .ret _ => True
  | .call o k => P o ∧ ∀ r, Within P (k r)

theorem Within.bind {P : Op → Prop} {p : Prog Op Res α} {f : α → Prog Op Res β}
    (hp : Within P p) (hf : ∀ a, Within P (f a)) : Within P (p >>= f) := by
  induction p with
  | ret a => exact hf a
  | call o k ih => exact ⟨hp.1, fun r => ih r (hp.2 r)⟩

theorem Within.imp {P Q : Op → Prop} (hPQ : ∀ o, P o → Q o) {p : Prog Op Res α}
    (hp : Within P p) : Within Q p := by
  induction p with
  | ret a => trivial
  | call o k ih => exact ⟨hPQ o hp.1, fun r => ih r (hp.2 r)⟩

theorem Within.of_follows {P : Op → Prop} {p q : Prog Op Res α} {cs : List (Call Op Res)}
    (hp : Within P p) (h : Follows p cs q) : Within P q := by
  induction cs generalizing p with
  | nil =>
    obtain rfl : q = p := h
    exact hp
  | cons c cs ih =>
    obtain ⟨k, rfl, hk⟩ := h
    exact ih (hp.2 c.2) hk

theorem Within.follows {P : Op → Prop} {p q : Prog Op Res α} {cs : List (Call Op Res)}
    (hp : Within P p) (h : Follows p cs q) : ∀ c ∈ cs, P c.1 := by
  induction cs generalizing p with
  | nil => simp
  | cons c cs ih =>
    obtain ⟨k, rfl, hk⟩ := h
    exact List.forall_mem_cons.mpr ⟨hp.1, ih (hp.2 c.2) hk⟩

/-! ## Programs over more operations -/

/-- The program over operations that include its own. -/
def embed {Op' : Type} {Res' : Op' → Type} (f : Op → Op') (g : ∀ o, Res' (f o) → Res o) :
    Prog Op Res α → Prog Op' Res' α
  | .ret a => .ret a
  | .call o k => .call (f o) fun r => (k (g o r)).embed f g

theorem within_embed {Op' : Type} {Res' : Op' → Type} (f : Op → Op')
    (g : ∀ o, Res' (f o) → Res o) (p : Prog Op Res α) :
    (p.embed f g).Within (fun o => ∃ o', o = f o') := by
  induction p with
  | ret a => trivial
  | call o k ih => exact ⟨⟨o, rfl⟩, fun r => ih (g o r)⟩

/-! ## A platform that answers -/

section Platform

variable {W : Type} (answer : W → (o : Op) → Res o × W)

/-- Run the program against a platform, which answers an operation and changes by it. -/
def exec : Prog Op Res α → W → α × W
  | .ret a, w => (a, w)
  | .call o k, w => exec (k (answer w o).1) (answer w o).2

/-- The platform gives these answers one after the other. -/
def Answers : W → List (Call Op Res) → W → Prop
  | w, [], w' => w' = w
  | w, c :: cs, w' => c.2 = (answer w c.1).1 ∧ Answers (answer w c.1).2 cs w'

/-- A program run against a platform returns through the calls the platform answers. -/
theorem exec_yields (p : Prog Op Res α) (w : W) :
    ∃ cs, p.Yields cs (exec answer p w).1 ∧ Answers answer w cs (exec answer p w).2 := by
  induction p generalizing w with
  | ret a => exact ⟨[], rfl, rfl⟩
  | call o k ih =>
    obtain ⟨cs, hyields, hanswers⟩ := ih (answer w o).1 (answer w o).2
    exact ⟨⟨o, (answer w o).1⟩ :: cs, ⟨k, rfl, hyields⟩, rfl, hanswers⟩

variable {answer}

theorem answers_append (w w'' : W) (cs ds : List (Call Op Res)) :
    Answers answer w (cs ++ ds) w'' ↔
      ∃ w', Answers answer w cs w' ∧ Answers answer w' ds w'' := by
  induction cs generalizing w with
  | nil => simp [Answers]
  | cons c cs ih =>
    simp only [List.cons_append, Answers, ih]
    refine ⟨fun h => ?_, fun h => ?_⟩
    · obtain ⟨hc, w', h₁, h₂⟩ := h
      exact ⟨w', ⟨hc, h₁⟩, h₂⟩
    · obtain ⟨w', ⟨hc, h₁⟩, h₂⟩ := h
      exact ⟨hc, w', h₁, h₂⟩

theorem Answers.of_mem {w w' : W} {cs : List (Call Op Res)} (h : Answers answer w cs w')
    {c : Call Op Res} (hc : c ∈ cs) : ∃ v pre post, Answers answer w pre v ∧
      c.2 = (answer v c.1).1 ∧ Answers answer (answer v c.1).2 post w' := by
  obtain ⟨pre, post, rfl⟩ := List.append_of_mem hc
  obtain ⟨v, hpre, hpost⟩ := (answers_append _ _ _ _).mp h
  exact ⟨v, pre, post, hpre, hpost⟩

end Platform

end Prog

end Interleave
