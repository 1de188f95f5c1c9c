/-!
# Records off a stream

A decoder takes one record off the front of a stream, or fails. `Decodes` is a run of it, record
after record; a decoder that takes something off at every success always runs into a failure
(`exists_decodes`).

A `Codec` is a decoder with the encoder it undoes. It reads a list of encodings back whatever
stands behind them (`Codec.decodes`), and where a cut through them falls is `exists_cut`.
-/

namespace Framing

variable {β α ε : Type}

/-- A decoder answers with a record and what is left of the stream, or with an error. -/
abbrev Decoder (β α ε : Type) : Type := List β → Except ε (α × List β)

/-- The records are decoded off the stream one after the other, and leave the rest. -/
inductive Decodes (decode : Decoder β α ε) : List β → List α → List β → Prop
  | done (bs : List β) : Decodes decode bs [] bs
  | next {bs rest rest' : List β} {a : α} {as : List α} :
      decode bs = .ok (a, rest) → Decodes decode rest as rest' → Decodes decode bs (a :: as) rest'

/-- Every success takes something off the stream. -/
def Shrinks (decode : Decoder β α ε) : Prop :=
  ∀ bs a rest, decode bs = .ok (a, rest) → rest.length < bs.length

variable {decode : Decoder β α ε} {bs rest : List β} {as : List α}

theorem Decodes.length_le (hshrinks : Shrinks decode) (h : Decodes decode bs as rest) :
    as.length + rest.length ≤ bs.length := by
  induction h with
  | done bs => simp
  | next hok _ ih =>
    have hlt := hshrinks _ _ _ hok
    rw [List.length_cons]
    omega

theorem exists_decodes (hshrinks : Shrinks decode) (bs : List β) :
    ∃ as rest e, Decodes decode bs as rest ∧ decode rest = .error e := by
  generalize hlen : bs.length = n
  induction n using Nat.strongRecOn generalizing bs with
  | _ n ih =>
    cases hbs : decode bs with
    | error e => exact ⟨[], bs, e, .done bs, hbs⟩
    | ok ar =>
      obtain ⟨a, rest⟩ := ar
      obtain ⟨as, rest', e, hrun, hstop⟩ := ih rest.length (hlen ▸ hshrinks _ _ _ hbs) rest rfl
      exact ⟨a :: as, rest', e, .next hbs hrun, hstop⟩

/-! ## Encodings -/

/-- A decoder undoes an encoder: it reads a record back whatever stands behind it, takes something
off at every success, and fails with a short-input error on part of an encoding. -/
structure Codec (encode : α → List β) (decode : Decoder β α ε) (Short : ε → Prop) : Prop where
  roundTrip : ∀ a rest, decode (encode a ++ rest) = .ok (a, rest)
  shrinks : Shrinks decode
  truncated : ∀ a part, part <+: encode a → part ≠ encode a →
    ∃ e, decode part = .error e ∧ Short e

variable {encode : α → List β} {Short : ε → Prop}

/-- The encodings of a list are read back, and leave what stands behind them. -/
theorem Codec.decodes (h : Codec encode decode Short) (as : List α) (tail : List β) :
    Decodes decode (as.flatMap encode ++ tail) as tail := by
  induction as with
  | nil => exact .done tail
  | cons a as ih =>
    rw [List.flatMap_cons, List.append_assoc]
    exact .next (h.roundTrip a _) ih

theorem Codec.encode_ne_nil (h : Codec encode decode Short) (a : α) : encode a ≠ [] := by
  intro hnil
  have hlt := h.shrinks _ _ _ (h.roundTrip a [])
  simp [hnil] at hlt

/-- A cut through the encodings of a list falls behind some of its records, and between two
records or into the one that follows. -/
theorem exists_cut (encode : α → List β) (as : List α) (n : Nat) :
    ∃ whole cut part, as = whole ++ cut ∧
      (as.flatMap encode).take n = whole.flatMap encode ++ part ∧
      (whole.flatMap encode).length ≤ n ∧
      ((cut = [] ∧ part = []) ∨ ∃ a cut', cut = a :: cut' ∧ part <+: encode a ∧
        part ≠ encode a ∧ n < ((whole ++ [a]).flatMap encode).length) := by
  induction as generalizing n with
  | nil => exact ⟨[], [], [], rfl, by simp, Nat.zero_le n, Or.inl ⟨rfl, rfl⟩⟩
  | cons a as ih =>
    by_cases hn : (encode a).length ≤ n
    · -- The first record lies before the cut.
      obtain ⟨whole, cut, part, rfl, htake, hle, hcut⟩ := ih (n - (encode a).length)
      refine ⟨a :: whole, cut, part, rfl, ?_, ?_, ?_⟩
      · rw [List.flatMap_cons, List.take_append, List.take_of_length_le hn, htake,
          List.flatMap_cons, List.append_assoc]
      · rw [List.flatMap_cons, List.length_append]
        omega
      · refine hcut.imp_right fun ⟨a', cut', hcons, hpart, hne, hlt⟩ => ?_
        refine ⟨a', cut', hcons, hpart, hne, ?_⟩
        rw [List.cons_append, List.flatMap_cons, List.length_append]
        omega
    · -- The cut goes through the first record.
      refine ⟨[], a :: as, (encode a).take n, rfl, ?_, Nat.zero_le n,
        Or.inr ⟨a, as, rfl, List.take_prefix _ _, ?_, ?_⟩⟩
      · rw [List.flatMap_cons, List.take_append_of_le_length (by omega)]
        rfl
      · intro heq
        have hlen := congrArg List.length heq
        rw [List.length_take] at hlen
        omega
      · simpa using hn

end Framing
