import Msrs.Lib.Framing
import Msrs.Cu
import Msrs.Core.Replay

/-!
# Reading a log back

`read_copperlists` of `replay.rs`: decode copperlists off the log's stream until the decoder
fails, and say how decoding ended. Two shapes of error mean that the stream ran out; every other
one is handed on as text.

The loop runs on `fuel`. `reads_of_decodes` takes it to a run of the decoder, for which the fuel
suffices that has one unit more than the stream has bytes; `read_copperlists_exact` is about what
the loop then returns on whole, cut and corrupted logs, whatever the record type and its decoder.
-/

namespace Msrs

open Framing Debug

/-- `std::io::ErrorKind`, as far as the reader tells kinds apart. -/
inductive ErrorKind where
  | unexpectedEof
  | other (kind : String)
  deriving DecidableEq

/-- bincode's decode errors, as far as the reader tells them apart. -/
inductive DecodeError where
  | unexpectedEnd (additional : Nat)
  | io (inner : ErrorKind) (additional : Nat)
  | other (variant : String)
  deriving DecidableEq

/-- How the copperlist decode loop ended. -/
inductive LogEnd where
  /-- The stream ended, at a record boundary or inside a record. -/
  | eof
  /-- Any other decode error, such as corrupted bytes. -/
  | error (msg : String)
  deriving DecidableEq

/-- What opens at a log's base name. -/
inductive UnifiedLogger where
  /-- A reader, with the bytes of its copperlist sections. -/
  | read (stream : List UInt8)
  | write

section Reader

variable {α : Type} [Debug DecodeError]

/-- Decode records off the reader until the decoder fails; `none` when the fuel runs out before. -/
def readLoop (decode : Decoder UInt8 α DecodeError) :
    Nat → List α → List UInt8 → Option (List α × LogEnd)
  | 0, _, _ => none
  | fuel + 1, copperlists, reader =>
    match decode reader with
    | .ok (cl, reader) => readLoop decode fuel (copperlists ++ [cl]) reader
    | .error (.unexpectedEnd _) => some (copperlists, .eof)
    | .error (.io inner additional) =>
      if inner = .unexpectedEof then some (copperlists, .eof)
      else some (copperlists, .error (fmt (DecodeError.io inner additional)))
    | .error e => some (copperlists, .error (fmt e))

/-- Decode every copperlist of the log that `build` opens, and report how decoding ended. -/
def readCopperlists (build : String → Except String UnifiedLogger)
    (decode : Decoder UInt8 α DecodeError) (fuel : Nat) (logBase : String) :
    Option (Except CuError (List α × LogEnd)) :=
  match build logBase with
  | .error e => some (.error { msg := "open unified log " ++ logBase ++ ": " ++ e })
  | .ok .write => some (.error { msg := "expected a read-only unified logger" })
  | .ok (.read stream) => (readLoop decode fuel [] stream).map .ok

/-! ## The end of a log -/

/-- The stream ran out. -/
def DecodeError.IsEnd : DecodeError → Prop
  | .unexpectedEnd _ => True
  | .io inner _ => inner = .unexpectedEof
  | .other _ => False

instance : DecidablePred DecodeError.IsEnd
  | .unexpectedEnd _ => isTrue trivial
  | .io inner _ => inferInstanceAs (Decidable (inner = .unexpectedEof))
  | .other _ => isFalse id

/-- How a decode error ends the log. -/
def DecodeError.logEnd (e : DecodeError) : LogEnd := if e.IsEnd then .eof else .error (fmt e)

theorem DecodeError.logEnd_of_isEnd {e : DecodeError} (h : e.IsEnd) : e.logEnd = .eof := if_pos h

theorem DecodeError.logEnd_of_not_isEnd {e : DecodeError} (h : ¬ e.IsEnd) :
    e.logEnd = .error (fmt e) := if_neg h

/-! ## The loop -/

variable {decode : Decoder UInt8 α DecodeError} {stream rest : List UInt8} {records : List α}
  {e : DecodeError}

theorem readLoop_ok {fuel : Nat} {cls : List α} {cl : α} (h : decode stream = .ok (cl, rest)) :
    readLoop decode (fuel + 1) cls stream = readLoop decode fuel (cls ++ [cl]) rest := by
  simp only [readLoop, h]

theorem readLoop_error {fuel : Nat} {cls : List α} (h : decode stream = .error e) :
    readLoop decode (fuel + 1) cls stream = some (cls, e.logEnd) := by
  cases e with
  | unexpectedEnd n =>
    simp only [readLoop, h]
    rfl
  | io inner n =>
    simp only [readLoop, h]
    by_cases hinner : inner = .unexpectedEof
    · rw [if_pos hinner, DecodeError.logEnd_of_isEnd (e := .io inner n) hinner]
    · rw [if_neg hinner, DecodeError.logEnd_of_not_isEnd (e := .io inner n) hinner]
  | other text =>
    simp only [readLoop, h]
    rfl

theorem readLoop_decodes (h : Decodes decode stream records rest) (hstop : decode rest = .error e)
    {fuel : Nat} (hfuel : records.length < fuel) (cls : List α) :
    readLoop decode fuel cls stream = some (cls ++ records, e.logEnd) := by
  induction h generalizing fuel cls with
  | done stream =>
    obtain ⟨fuel, rfl⟩ : ∃ n, fuel = n + 1 := ⟨fuel - 1, by simp at hfuel; omega⟩
    rw [readLoop_error hstop, List.append_nil]
  | @next _ _ _ cl records hok _ ih =>
    obtain ⟨fuel, rfl⟩ : ∃ n, fuel = n + 1 := ⟨fuel - 1, by simp at hfuel; omega⟩
    have hfuel' : records.length < fuel := by
      rw [List.length_cons] at hfuel
      omega
    rw [readLoop_ok hok, ih hstop hfuel', List.append_assoc]
    rfl

/-- Reading a log with these bytes returns these records and this end. -/
def Reads (decode : Decoder UInt8 α DecodeError) (stream : List UInt8) (records : List α)
    (stop : LogEnd) : Prop :=
  ∀ build logBase fuel, build logBase = .ok (.read stream) → stream.length < fuel →
    readCopperlists build decode fuel logBase = some (.ok (records, stop))

/-- Reading a log returns the records its stream decodes to. -/
theorem reads_of_decodes (hshrinks : Shrinks decode) (h : Decodes decode stream records rest)
    (hstop : decode rest = .error e) : Reads decode stream records e.logEnd := by
  intro build logBase fuel hbuild hfuel
  have hlen := h.length_le hshrinks
  simp only [readCopperlists, hbuild]
  rw [readLoop_decodes h hstop (by omega), List.nil_append]
  rfl

/-- A log that ends in part of an encoding, or in nothing, reads as ended. -/
theorem reads_cut {encode : α → List UInt8} (hcodec : Codec encode decode DecodeError.IsEnd)
    (a : α) (whole : List α) {part : List UInt8} (hpart : part <+: encode a)
    (hne : part ≠ encode a) : Reads decode (whole.flatMap encode ++ part) whole .eof := by
  obtain ⟨e, hstop, hend⟩ := hcodec.truncated a part hpart hne
  rw [← DecodeError.logEnd_of_isEnd hend]
  exact reads_of_decodes hcodec.shrinks (hcodec.decodes whole part) hstop

/-- **Reading a log back.** For a decoder that undoes its encoder, takes something off the stream
at every success and calls every strict part of an encoding an end:

* a list of encodings cut at any position reads as the records that lie wholly before the cut, in
  order, and as ended;
* a list of encodings followed by bytes that do not decode for another reason reads as these
  records, with the error;
* every stream is read to its first undecodable record, and no further. -/
theorem read_copperlists_exact [Inhabited α] {encode : α → List UInt8}
    (hcodec : Codec encode decode DecodeError.IsEnd) :
    (∀ (cls : List α) (n : Nat), ∃ whole cut, cls = whole ++ cut ∧
      (whole.flatMap encode).length ≤ n ∧
      (∀ cl cut', cut = cl :: cut' → n < ((whole ++ [cl]).flatMap encode).length) ∧
      Reads decode ((cls.flatMap encode).take n) whole .eof) ∧
    (∀ (cls : List α) (tail : List UInt8) (e : DecodeError), decode tail = .error e → ¬ e.IsEnd →
      Reads decode (cls.flatMap encode ++ tail) cls (.error (fmt e))) ∧
    ∀ stream : List UInt8, ∃ records rest e, Decodes decode stream records rest ∧
      decode rest = .error e ∧ Reads decode stream records e.logEnd := by
  refine ⟨?_, ?_, ?_⟩
  · intro cls n
    obtain ⟨whole, cut, part, hcls, htake, hle, hcut⟩ := exists_cut encode cls n
    refine ⟨whole, cut, hcls, hle, ?_, ?_⟩
    · intro cl cut' hcons
      rcases hcut with ⟨hnil, -⟩ | ⟨a, as, hcons', -, -, hlt⟩
      · cases hnil.symm.trans hcons
      · cases hcons'.symm.trans hcons
        exact hlt
    · rw [htake]
      rcases hcut with ⟨-, rfl⟩ | ⟨a, -, -, hpart, hne, -⟩
      · exact reads_cut hcodec default whole List.nil_prefix (hcodec.encode_ne_nil default).symm
      · exact reads_cut hcodec a whole hpart hne
  · intro cls tail e htail hother
    rw [← DecodeError.logEnd_of_not_isEnd hother]
    exact reads_of_decodes hcodec.shrinks (hcodec.decodes cls tail) htail
  · intro stream
    obtain ⟨records, rest, e, hrun, hstop⟩ := exists_decodes hcodec.shrinks stream
    exact ⟨records, rest, e, hrun, hstop, reads_of_decodes hcodec.shrinks hrun hstop⟩

end Reader

/-! ## A record of a byte and a flag -/

instance : Debug DecodeError where
  fmt
    | .unexpectedEnd additional =>
      "UnexpectedEnd \x7b additional: " ++ toString additional ++ " \x7d"
    | .io inner additional =>
      let kind := match inner with
        | .unexpectedEof => "UnexpectedEof"
        | .other kind => kind
      "Io \x7b inner: Kind(" ++ kind ++ "), additional: " ++ toString additional ++ " \x7d"
    | .other variant => variant

/-- bincode's encoding of the pair. -/
def encodeFlagged (r : UInt8 × Bool) : List UInt8 := [r.1, if r.2 then 1 else 0]

/-- bincode's decoding of the pair from a reader. -/
def decodeFlagged : Decoder UInt8 (UInt8 × Bool) DecodeError
  | [] | [_] => .error (.io .unexpectedEof 1)
  | x :: flag :: rest =>
    if flag = 0 then .ok ((x, false), rest)
    else if flag = 1 then .ok ((x, true), rest)
    else .error (.other ("InvalidBooleanValue(" ++ toString flag ++ ")"))

theorem codec_flagged : Codec encodeFlagged decodeFlagged DecodeError.IsEnd where
  roundTrip r rest := by
    obtain ⟨x, flag⟩ := r
    cases flag <;> rfl
  shrinks bs r rest h := by
    rcases bs with _ | ⟨x, _ | ⟨flag, bs⟩⟩
    · cases h
    · cases h
    · have hrest : rest = bs := by
        by_cases h₀ : flag = 0
        · simp_all [decodeFlagged]
        · by_cases h₁ : flag = 1 <;> simp_all [decodeFlagged]
      rw [hrest, List.length_cons, List.length_cons]
      omega
  truncated r part hpart hne := by
    rcases part with _ | ⟨x, _ | ⟨flag, bs⟩⟩
    · exact ⟨_, rfl, rfl⟩
    · exact ⟨_, rfl, rfl⟩
    · refine absurd (hpart.eq_of_length_le ?_) hne
      simp [encodeFlagged]

/-- Two records cut inside the second, and two followed by a flag that is none. -/
theorem read_copperlists_exact_flagged :
    (∃ whole cut, [(7, true), (8, false)] = whole ++ cut ∧
      (whole.flatMap encodeFlagged).length ≤ 3 ∧ Reads decodeFlagged [7, 1, 8] whole .eof) ∧
    Reads decodeFlagged [7, 1, 8, 0, 9, 2] [(7, true), (8, false)]
      (.error "InvalidBooleanValue(2)") := by
  obtain ⟨hcut, hcorrupt, -⟩ := read_copperlists_exact codec_flagged
  obtain ⟨whole, cut, hsplit, hle, -, hreads⟩ := hcut [(7, true), (8, false)] 3
  exact ⟨⟨whole, cut, hsplit, hle, hreads⟩,
    hcorrupt [(7, true), (8, false)] [9, 2] (.other "InvalidBooleanValue(2)") (by decide) id⟩

example : readLoop decodeFlagged 4 [] [7, 1, 8] = some ([(7, true)], .eof) := by decide

end Msrs
