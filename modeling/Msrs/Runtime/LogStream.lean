import Msrs.Runtime.Timed
import Msrs.Core.Log
import Mathlib.Logic.Equiv.List
import Mathlib.Data.List.TakeWhile

/-!
# The log as a stream

The copperlists of a run are logged one encoding after another, and a reader gets them back as one
stream out of the sections of the log file. `crash_replays` — whatever the moment and wherever this
stream ends, with intact sections, what `read_copperlists` makes of it is the beginning of the log,
and it passes the replay gate if it holds a copperlist.
-/

namespace Msrs

open Interleave Fifo Framing

variable {T U σ : Type} (task : CycleIngressTask) (M : FsmSpec σ (Cycle T) U) (pick : Nat → Nat)
  (ring : Nat → Slots (Cycle T) (Batch U)) (id : UInt64) (capacity : Capacity) (clock : Nat)
  (sched : Schedule T U)

/-! ## The log at any moment -/

/-- Also while an iteration is under way the log holds cycles, and what the replay closure answers
them. -/
theorem log_of_cycles :
    let m := timedRun task M pick ring id capacity clock sched
    ∃ cycles : List (Cycle T), m.mem.log.map (fun cl => cl.msgs.1) = cycles.map cycleSlot ∧
      m.mem.log.map (fun cl => cl.msgs.2.payload) =
        Mealy.outputs (replayStep M) M.default cycles ∧
      m.mem.log.map CopperList.id = Dag.ids id (m.stage / 3) := by
  intro m
  have href : Pipeline.Refines (timedContract task M) (FsmBatchTask.default M) m :=
    timed_refines task M pick ring id capacity clock sched
  have hids : m.mem.log.map CopperList.id = Dag.ids id (m.stage / 3) :=
    (Dag.logged_run (timed task M).dag pick _ ring id _ sched).map_id
  clear_value m
  have hfilled : ∀ a ∈ m.mem.log.map (fun cl => cl.msgs.1), (timedContract task M).Filled a :=
    fun a ha => href.filled a (List.mem_append_left _ ha)
  obtain ⟨cycles, hcycles, -⟩ := exists_cycles task M hfilled
  refine ⟨cycles, hcycles, ?_, hids⟩
  have hproduced := href.produced
  rw [Pipeline.produced, Pipeline.handed, hcycles, Mealy.outputs_append] at hproduced
  have hlog := (List.append_inj hproduced (by
    rw [Mealy.length_outputs, ← hcycles, List.length_map, List.length_map])).1
  rw [hlog, (timedContract_run task M _ cycles).2]
  rfl

theorem take_ids (id : UInt64) {k n : Nat} (hk : k ≤ n) : (Dag.ids id n).take k = Dag.ids id k := by
  rw [Dag.ids, ← List.map_take, List.take_range, Nat.min_eq_left hk]
  rfl

theorem recording_take {k : Nat}
    (hk : k ≤ (timedRun task M pick ring id capacity clock sched).stage / 3) :
    let m := timedRun task M pick ring id capacity clock sched
    ∃ recorded, readRecorded (m.mem.log.take k) = some recorded ∧ recorded.length = k ∧
      recorded.map Recorded.id = Dag.ids id k ∧
      recorded.map Recorded.output =
        Mealy.outputs (replayStep M) M.default (recorded.map Recorded.input) := by
  intro m
  obtain ⟨cycles, hcycles, houtputs, hids⟩ : ∃ cycles : List (Cycle T),
      m.mem.log.map (fun cl => cl.msgs.1) = cycles.map cycleSlot ∧
      m.mem.log.map (fun cl => cl.msgs.2.payload) =
        Mealy.outputs (replayStep M) M.default cycles ∧
      m.mem.log.map CopperList.id = Dag.ids id (m.stage / 3) :=
    log_of_cycles task M pick ring id capacity clock sched
  have hslots : (m.mem.log.take k).map (fun cl => cl.msgs.1) = (cycles.take k).map cycleSlot := by
    rw [List.map_take, hcycles, List.map_take]
  obtain ⟨recorded, hread, hin, hid, hout⟩ := readRecorded_of_cycles hslots
  have hid : recorded.map Recorded.id = Dag.ids id k := by
    rw [hid, List.map_take, hids, take_ids id hk]
  refine ⟨recorded, hread, ?_, hid, ?_⟩
  · rw [← List.length_map (f := Recorded.id), hid, Dag.ids, List.length_map, List.length_range]
  · rw [hout, List.map_take, houtputs, hin, Mealy.outputs_take]

/-! ## What a crash leaves -/

/-- The first bytes of a list of encodings read as the records that lie wholly before the cut. -/
theorem reads_take {α : Type} [Debug DecodeError] {encode : α → List UInt8}
    {decode : Decoder UInt8 α DecodeError} (hcodec : Codec encode decode DecodeError.IsEnd)
    (a₀ : α) (cls : List α) (bytes : Nat) :
    ∃ k, k ≤ cls.length ∧ ((cls.take k).flatMap encode).length ≤ bytes ∧
      (k < cls.length → bytes < ((cls.take (k + 1)).flatMap encode).length) ∧
      Reads decode ((cls.flatMap encode).take bytes) (cls.take k) .eof := by
  obtain ⟨whole, cut, part, rfl, htake, hle, hcut⟩ := exists_cut encode cls bytes
  refine ⟨whole.length, by simp, ?_, ?_, ?_⟩
  · rwa [List.take_left]
  · intro hlt
    rcases hcut with ⟨rfl, -⟩ | ⟨a, cut', rfl, -, -, hmore⟩
    · simp at hlt
    · rwa [List.take_append, List.take_of_length_le (Nat.le_succ _), Nat.add_sub_cancel_left]
  · rw [htake, List.take_left]
    rcases hcut with ⟨-, rfl⟩ | ⟨a, -, -, hpart, hne, -⟩
    · exact reads_cut hcodec a₀ whole List.nil_prefix (hcodec.encode_ne_nil a₀).symm
    · exact reads_cut hcodec a whole hpart hne

/-- **A crash does not spoil the log.** At any moment of any run, without a wrapped id, let the
copperlist stream be cut after any number of its bytes. Reading it ends cleanly and returns the
copperlists that lie wholly before the cut, the first `k`; they read as a recording with consecutive
ids; and if there is one, the recording passes the replay gate without a divergence. -/
theorem crash_replays [Encode (Option (Batch U))] [Debug (Cycle T)] [Debug (Option (Batch U))]
    [Debug DecodeError] {encode : CopperList (Slots (Cycle T) (Batch U)) → List UInt8}
    {decode : Decoder UInt8 (CopperList (Slots (Cycle T) (Batch U))) DecodeError}
    (hcodec : Codec encode decode DecodeError.IsEnd) (b : Build)
    (hwrap : id.toNat + (timedRun task M pick ring id capacity clock sched).stage / 3 ≤ 2 ^ 64)
    (bytes : Nat) :
    let m := timedRun task M pick ring id capacity clock sched
    ∃ k recorded, k ≤ m.stage / 3 ∧
      ((m.mem.log.take k).flatMap encode).length ≤ bytes ∧
      (k < m.stage / 3 → bytes < ((m.mem.log.take (k + 1)).flatMap encode).length) ∧
      Reads decode ((m.mem.log.flatMap encode).take bytes) (m.mem.log.take k) .eof ∧
      readRecorded (m.mem.log.take k) = some recorded ∧ recorded.length = k ∧
      recorded.map Recorded.id = Dag.ids id k ∧
      (0 < k → ∃ report s', replayGate b (replayStep M) M.default recorded = some (report, s') ∧
        report.passed = true ∧ report.divergent = 0) := by
  intro m
  have hlength : m.mem.log.length = m.stage / 3 :=
    (Dag.logged_run (timed task M).dag pick _ ring id _ sched).length_log
  obtain ⟨k, hk, hle, hmore, hreads⟩ :=
    reads_take hcodec { id := 0, msgs := ring 0 } m.mem.log bytes
  rw [hlength] at hk hmore
  obtain ⟨recorded, hread, hrecorded, hids, hanswers⟩ :=
    recording_take task M pick ring id capacity clock sched hk
  refine ⟨k, recorded, hk, hle, hmore, hreads, hread, hrecorded, hids, ?_⟩
  intro hpos
  have hwrap' : id.toNat + k ≤ 2 ^ 64 := Nat.le_trans (Nat.add_le_add_left hk _) hwrap
  have hadjacent := adjacent_ids b hwrap'
  obtain ⟨report, s', hgate, hpassed⟩ : Passes b (replayStep M) M.default recorded :=
    passes_of_outputs (List.ne_nil_of_length_pos (hrecorded ▸ hpos)) (hids ▸ hadjacent) hanswers
  exact ⟨report, s', hgate, hpassed, GateReport.divergent_of_passed hpassed⟩

/-! ## A log in unary -/

/-- A record as its number in unary. -/
def unary {α : Type} [Encodable α] (a : α) : List UInt8 :=
  List.replicate (Encodable.encode a) 1 ++ [0]

/-- Read a number up to its end mark. -/
def ofUnary {α : Type} [Encodable α] : Decoder UInt8 α DecodeError := fun stream =>
  match stream.dropWhile (· == 1) with
  | [] => .error (.unexpectedEnd 1)
  | _ :: rest =>
    match Encodable.decode (stream.takeWhile (· == 1)).length with
    | some a => .ok (a, rest)
    | none => .error (.other "Other")

theorem codec_unary {α : Type} [Encodable α] :
    Codec (unary (α := α)) ofUnary DecodeError.IsEnd where
  roundTrip a rest := by
    simp [unary, ofUnary]
  shrinks bs a rest h := by
    have hle := (List.dropWhile_suffix (l := bs) (· == 1)).length_le
    unfold ofUnary at h
    split at h
    · cases h
    · rename_i x rest' hdrop
      rw [hdrop, List.length_cons] at hle
      split at h
      · cases h
        exact hle
      · cases h
  truncated a part hpart hne := by
    have hones := (List.prefix_concat_iff.mp hpart).resolve_left hne
    have hnil : part.dropWhile (· == 1) = [] := by
      refine List.dropWhile_eq_nil_iff.mpr fun x hx => ?_
      rw [List.eq_of_mem_replicate (hones.subset hx)]
      rfl
    refine ⟨.unexpectedEnd 1, ?_, trivial⟩
    simp only [ofUnary, hnil]

instance encodableUInt8 : Encodable UInt8 := .ofLeftInverse UInt8.toNat UInt8.ofNat (by simp)
instance encodableUInt32 : Encodable UInt32 := .ofLeftInverse UInt32.toNat UInt32.ofNat (by simp)
instance encodableUInt64 : Encodable UInt64 := .ofLeftInverse UInt64.toNat UInt64.ofNat (by simp)

instance : Encodable Tov :=
  .ofLeftInverse
    (fun
      | .none => none
      | .time t => some (Sum.inl t)
      | .range start stop => some (Sum.inr (start, stop)))
    (fun
      | none => .none
      | some (Sum.inl t) => .time t
      | some (Sum.inr (start, stop)) => .range start stop)
    (by
      intro tov
      cases tov <;> rfl)

instance {α : Type} [Encodable α] : Encodable (CuMsg α) :=
  .ofLeftInverse (fun msg => (msg.payload, msg.tov)) (fun x => ⟨x.1, x.2⟩) fun _ => rfl

instance {α : Type} [Encodable α] : Encodable (Cycle α) :=
  .ofLeftInverse (fun c => (c.nowNs, c.events, c.pending)) (fun x => ⟨x.1, x.2.1, x.2.2⟩)
    fun _ => rfl

instance {α : Type} [Encodable α] : Encodable (Batch α) :=
  .ofLeftInverse Batch.values Batch.mk fun _ => rfl

instance {C : Type} [Encodable C] : Encodable (CopperList C) :=
  .ofLeftInverse (fun cl => (cl.id, cl.msgs)) (fun x => ⟨x.1, x.2⟩) fun _ => rfl

/-- A whole iteration, and a crash in the next when nothing of the first is lost. -/
theorem crash_replays_forwarder :
    let m := timedRun { maxBatch := 1, maxBatch_pos := by decide } forwarder (fun _ => 0)
      (fun _ => (.new none, .new none)) 5 none 40
      (.env (.send 7) :: List.replicate 11 .move)
    Reads ofUnary (m.mem.log.flatMap unary) m.mem.log .eof ∧
      ∃ recorded, readRecorded m.mem.log = some recorded ∧ recorded.length = 1 := by
  intro m
  let _ : Encode (Option (Batch UInt8)) := ⟨fun b => .ok (batchValues b)⟩
  let _ : Debug (Option (Batch UInt8)) := ⟨fun b => toString (batchValues b)⟩
  let _ : Debug (Cycle UInt8) := ⟨fun c => toString c.events⟩
  have hlog : m.mem.log.take 1 = m.mem.log := rfl
  obtain ⟨k, recorded, hk, -, hmore, hreads, hread, hlength, -⟩ := crash_replays
    { maxBatch := 1, maxBatch_pos := by decide } forwarder (fun _ => 0)
    (fun _ => (.new none, .new none)) 5 none 40 (.env (.send 7) :: List.replicate 11 .move)
    codec_unary .debug (by decide) (m.mem.log.flatMap unary).length
  obtain rfl : k = 1 := by
    have hstage : (timedRun { maxBatch := 1, maxBatch_pos := by decide } forwarder (fun _ => 0)
      (fun _ => (.new none, .new none)) 5 none 40
      (.env (.send 7) :: List.replicate 11 .move)).stage / 3 = 1 := rfl
    rw [hstage] at hk hmore
    by_contra hne
    obtain rfl : k = 0 := by omega
    exact absurd (hmore Nat.one_pos) (Nat.lt_irrefl _)
  refine ⟨?_, recorded, hread, hlength⟩
  rw [List.take_length] at hreads
  exact hreads

end Msrs
