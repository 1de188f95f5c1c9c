import Msrs.Watchdog.Live
import Msrs.Watchdog.Alarms
import Msrs.Watchdog.Control
import Msrs.Runtime.LogStream
import Msrs.Lib.Panics

/-!
# The `main` of the watchdog service

What `main` asserts after the live run: the alarms are of the expected kinds; the log reads back and
holds them; the replay passes; and with the feeds of the cycle that armed cleared it fails.

`main_passes` — in every run only the first of these can fail.
-/

namespace Msrs

open Interleave Fifo Framing Debug

namespace WatchdogService

/-- A recorded step of the service. -/
abbrev Step : Type := Recorded (Cycle Feed) (Option (Batch Alarm))

/-- The copperlists of the service. -/
abbrev WatchdogCopperList : Type := CopperList (Slots (Cycle Feed) (Batch Alarm))

section Main

variable [Encode (Option (Batch Alarm))] [Debug (Cycle Feed)] [Debug (Option (Batch Alarm))]
  [Debug DecodeError] [Debug GateReport] [Debug CuError] [Debug (List String)]

/-- `read_recorded`; `ids` are those of the generated `get_all_task_ids`. -/
def readSteps (ids : List String) (open_ : String → Except String UnifiedLogger)
    (decode : Decoder UInt8 WatchdogCopperList DecodeError) (fuel : Nat) (logBase : String) :
    Panics (List Step) := do
  Panics.assert (ids = ["ingress", "watchdog", "egress"])
    ("unexpected copperlist slot order: " ++ fmt ids)
  match readCopperlists open_ decode fuel logBase with
  | none => none
  | some read => do
    let (copperlists, stop) ← Panics.expect (read.mapError fmt) "read unified log"
    Panics.assert (stop = .eof) "log did not end cleanly"
    match readRecorded copperlists with
    | some recorded => return recorded
    | none => throw "copperlist without a cycle"

/-- Re-run a fresh machine over the recorded cycles. -/
def replay (b : Build) (recorded : List Step) : Panics GateReport :=
  match replayGate b (replayStep watchdog) .default recorded with
  | some (report, _) => return report
  | none => throw "attempt to add with overflow"

/-- Drop the feeds of the first cycle that armed the watchdog. -/
def clearArmed : List Step → Option (List Step)
  | [] => none
  | r :: rs =>
    if r.output.any fun b => b.values.contains .armed then some (r.withEvents [] :: rs)
    else (clearArmed rs).map (r :: ·)

/-- `main` after `run_live` has returned `live`. -/
def main (b : Build) (ids : List String) (open_ : String → Except String UnifiedLogger)
    (decode : Decoder UInt8 WatchdogCopperList DecodeError) (fuel : Nat) (logBase : String)
    (live : List Alarm) : Panics Unit := do
  Panics.assert (live.map Alarm.kind = ["armed", "tripped", "recovered", "tripped"])
    "live run did not arm, trip on silence, recover, and trip after the last feed"
  let recorded ← readSteps ids open_ decode fuel logBase
  let alarms := (recorded.filterMap Recorded.output).flatMap Batch.values
  Panics.assert (alarms = live) "the log does not hold the alarms the live run sent"
  let report ← replay b recorded
  Panics.assert (report.passed = true) ("replay diverged or the log has gaps: " ++ fmt report)
  match clearArmed recorded with
  | none => throw "a cycle that armed"
  | some perturbed => do
    let control ← replay b perturbed
    Panics.assert (control.passed = false) "negative control passed: the gate is vacuous"

end Main

/-! ## What the live run leaves -/

theorem kinds_iff {alarms : List Alarm}
    (h : alarms.map Alarm.kind = (List.range alarms.length).map turnKind) :
    alarms.map Alarm.kind = ["armed", "tripped", "recovered", "tripped"] ↔ alarms.length = 4 := by
  refine ⟨fun hkinds => ?_, fun hlength => ?_⟩
  · rw [← List.length_map (f := Alarm.kind), hkinds]
    rfl
  · rw [h, hlength]
    rfl

theorem armed_of_kinds {alarms : List Alarm}
    (h : alarms.map Alarm.kind = ["armed", "tripped", "recovered", "tripped"]) :
    .armed ∈ alarms := by
  have hmem : "armed" ∈ alarms.map Alarm.kind := h ▸ List.mem_cons_self
  obtain ⟨a, ha, hkind⟩ := List.mem_map.mp hmem
  cases a with
  | armed => exact ha
  | tripped silentNs | recovered => simp [Alarm.kind] at hkind

theorem values_recorded (recorded : List Step) :
    (recorded.filterMap Recorded.output).flatMap Batch.values =
      recorded.flatMap fun r => batchValues r.output := by
  induction recorded with
  | nil => rfl
  | cons r recorded ih =>
    cases hout : r.output with
    | none => simp [hout, ih, batchValues]
    | some batch => simp [hout, ih, batchValues]

theorem clearArmed_of_mem {recorded : List Step}
    (h : .armed ∈ recorded.flatMap fun r => batchValues r.output) :
    ∃ pre r post, recorded = pre ++ r :: post ∧ .armed ∈ batchValues r.output ∧
      clearArmed recorded = some (pre ++ r.withEvents [] :: post) := by
  induction recorded with
  | nil => cases h
  | cons r recorded ih =>
    have harmed : (r.output.any fun b => b.values.contains .armed) = true ↔
        .armed ∈ batchValues r.output := by
      cases hout : r.output <;> simp [batchValues]
    by_cases hr : .armed ∈ batchValues r.output
    · exact ⟨[], r, recorded, rfl, hr, if_pos (harmed.mpr hr)⟩
    · rw [List.flatMap_cons, List.mem_append] at h
      obtain ⟨pre, r', post, rfl, hr', hclear⟩ := ih (h.resolve_left hr)
      refine ⟨r :: pre, r', post, rfl, hr', ?_⟩
      rw [clearArmed, if_neg (mt harmed.mp hr), hclear]
      rfl

theorem readSteps_written [Debug DecodeError] [Debug CuError] [Debug (List String)]
    {encode : WatchdogCopperList → List UInt8}
    {decode : Decoder UInt8 WatchdogCopperList DecodeError}
    (hcodec : Codec encode decode DecodeError.IsEnd) (cl₀ : WatchdogCopperList)
    {ids : List String} (hslots : ids = ["ingress", "watchdog", "egress"])
    {log : List WatchdogCopperList} {recorded : List Step}
    (hread : readRecorded log = some recorded) {open_ : String → Except String UnifiedLogger}
    {logBase : String} {fuel : Nat} (hopen : open_ logBase = .ok (.read (log.flatMap encode)))
    (hfuel : (log.flatMap encode).length < fuel) :
    readSteps ids open_ decode fuel logBase = pure recorded := by
  have hreads := reads_cut hcodec cl₀ log List.nil_prefix (hcodec.encode_ne_nil _).symm
  rw [List.append_nil] at hreads
  rw [readSteps, Panics.assert_bind_of hslots, hreads open_ logBase fuel hopen hfuel]
  simp only [Except.mapError, Panics.expect_ok, Panics.assert_of, hread, pure_bind]

section Runs

variable (task : CycleIngressTask) (pick : Nat → Nat)
  (ring : Nat → Slots (Cycle Feed) (Batch Alarm)) (id : UInt64) (target : TargetOs)
  (rt : RtConfig) (capacity : Capacity) (clock : Nat)
  (turns : List (Threads.Turn Party Decision Nat))

/-- The live run of the service, as long as `main` iterates. -/
def liveRun : PulseMoment (FsmBatchTask WatchdogMachine) (Slots (Cycle Feed) (Batch Alarm)) :=
  Pulse.live (timed task watchdog).dag pick (.start (FsmBatchTask.default watchdog) ring id)
    target rt capacity clock turns

/-- The live run after `main` has dropped the application. -/
def endOfRun (later : List (Threads.Turn Party Decision Nat)) :
    PulseMoment (FsmBatchTask WatchdogMachine) (Slots (Cycle Feed) (Batch Alarm)) :=
  Pulse.closing (timed task watchdog).dag pick (.start (FsmBatchTask.default watchdog) ring id)
    target rt capacity clock turns later

/-- After `n` iterations the log holds what the machine answered, and this is what was delivered. -/
theorem live_recording {n : Nat}
    (hstage : (liveRun task pick ring id target rt capacity clock turns).loop.stage = 3 * n) :
    let m := liveRun task pick ring id target rt capacity clock turns
    ∃ recorded : List Step, readRecorded m.loop.mem.log = some recorded ∧
      recorded.map Recorded.id = Dag.ids id n ∧
      recorded.map Recorded.output =
        Mealy.outputs (replayStep watchdog) watchdog.default (recorded.map Recorded.input) ∧
      recorded.flatMap (fun r => batchValues r.output) = delivered m.loop.calls := by
  intro m
  have hrx : m.loop.world.outbound.rx = true :=
    Pulse.rx_of_serving (Pulse.serving_live (timed task watchdog).dag pick
      (.start (FsmBatchTask.default watchdog) ring id) target rt capacity clock turns)
  obtain ⟨sched, hloop⟩ : ∃ sched,
      m.loop = timedRun task watchdog pick ring id capacity clock sched :=
    (Pulse.program target rt).run_loop (timed task watchdog).dag pick _ _ turns
  have hstage' : m.loop.stage = 3 * n := hstage
  clear_value m
  rw [hloop] at hrx hstage' ⊢
  have hall := (timed task watchdog).dag.noneRefused_run pick _ _ sched hrx
  obtain ⟨recorded, hread, hids, hanswers, -, hsent⟩ :=
    timed_recording task watchdog pick ring id capacity clock sched hstage'
  exact ⟨recorded, hread, hids, hanswers,
    (hsent hall).trans (noneRefused_iff.mp hall).symm⟩

theorem kinds_recorded {recorded : List Step} (hanswers : recorded.map Recorded.output =
    Mealy.outputs (replayStep watchdog) watchdog.default (recorded.map Recorded.input)) :
    (recorded.flatMap fun r => batchValues r.output).map Alarm.kind =
      (List.range (recorded.flatMap fun r => batchValues r.output).length).map turnKind := by
  have hvalues : recorded.flatMap (fun r => batchValues r.output) =
      (Mealy.outputs watchdog.runStepAll watchdog.default
        ((recorded.map Recorded.input).map .message)).flatten := by
    rw [← (replayStep_run watchdog _ _).2, ← hanswers, List.flatMap_map]
  rw [hvalues]
  exact (inTurn_run _).kinds

variable [Encode (Option (Batch Alarm))] [Debug (Cycle Feed)] [Debug (Option (Batch Alarm))]

theorem replay_passes (b : Build) {recorded : List Step} {n : Nat}
    (hids : recorded.map Recorded.id = Dag.ids id n) (hwrap : id.toNat + n ≤ 2 ^ 64)
    (hne : recorded ≠ []) (hanswers : recorded.map Recorded.output =
      Mealy.outputs (replayStep watchdog) watchdog.default (recorded.map Recorded.input)) :
    ∃ report, replay b recorded = pure report ∧ report.passed = true := by
  obtain ⟨report, s', hgate, hpassed⟩ : Passes b (replayStep watchdog) watchdog.default recorded :=
    passes_of_outputs hne (hids ▸ adjacent_ids b hwrap) hanswers
  have hgate' : replayGate b (replayStep watchdog) WatchdogMachine.default _ = _ := hgate
  refine ⟨report, ?_, hpassed⟩
  rw [replay, hgate']

theorem replay_cleared (hbincode : NoneApart (Batch Alarm)) (b : Build)
    {pre post : List Step} {r : Step} {n : Nat}
    (hids : (pre ++ r :: post).map Recorded.id = Dag.ids id n) (hwrap : id.toNat + n ≤ 2 ^ 64)
    (hanswers : (pre ++ r :: post).map Recorded.output = Mealy.outputs (replayStep watchdog)
      watchdog.default ((pre ++ r :: post).map Recorded.input))
    (harmed : .armed ∈ batchValues r.output) :
    ∃ report, replay b (pre ++ r.withEvents [] :: post) = pure report ∧
      report.passed = false := by
  have hfits : b.Fits ((pre ++ r :: post).map Recorded.id) := by
    intro pq hpq
    rw [hids] at hpq
    rw [adjacent_ids b hwrap pq hpq]
    exact Option.some_ne_none _
  obtain ⟨report, s', hgate, hpassed, -⟩ :=
    control_fails hbincode hfits hanswers (.clear (Or.inl harmed))
  have hgate' : replayGate b (replayStep watchdog) WatchdogMachine.default _ = _ := hgate
  refine ⟨report, ?_, hpassed⟩
  rw [replay, hgate']

variable [Debug DecodeError] [Debug GateReport] [Debug CuError] [Debug (List String)]

/-- **Only the kinds can fail.** Take any run of the service: any order of the moves of the
runtime and the three threads for `n` iterations, without a wrapped id, and any order of what the
threads do after `main` has dropped the application, until `main` has collected the alarms. On the
log that was written, with the tasks in the expected slots, the rest of `main` succeeds if there are
four alarms, and panics with its first message if there are not. The log reads back and holds these
alarms, the replay passes, and the negative control fails. -/
theorem main_passes {encode : WatchdogCopperList → List UInt8}
    {decode : Decoder UInt8 WatchdogCopperList DecodeError}
    (hcodec : Codec encode decode DecodeError.IsEnd) (hbincode : NoneApart (Batch Alarm))
    (b : Build) {ids : List String} (hslots : ids = ["ingress", "watchdog", "egress"]) {n : Nat}
    (hwrap : id.toNat + n ≤ 2 ^ 64)
    {later : List (Threads.Turn Party Decision Nat)} (hrest : ∀ t ∈ later, t ≠ .loop)
    {alarms : List Alarm} :
    let m := liveRun task pick ring id target rt capacity clock turns
    m.loop.stage = 3 * n →
    (endOfRun task pick ring id target rt capacity clock turns later).pool.ended .main =
      some alarms →
    ∀ open_ logBase fuel, open_ logBase = .ok (.read (m.loop.mem.log.flatMap encode)) →
      (m.loop.mem.log.flatMap encode).length < fuel →
      main b ids open_ decode fuel logBase alarms =
        if alarms.length = 4 then pure ()
        else throw "live run did not arm, trip on silence, recover, and trip after the last feed"
      := by
  intro m hstage hreturns open_ logBase fuel hopen hfuel
  obtain ⟨hdelivered, -⟩ := Pulse.live_delivered (timed task watchdog).dag pick
    (.start (FsmBatchTask.default watchdog) ring id) target rt capacity clock turns hrest hreturns
  obtain ⟨recorded, hread, hids, hanswers, hvalues⟩ : ∃ recorded : List Step,
      readRecorded m.loop.mem.log = some recorded ∧ recorded.map Recorded.id = Dag.ids id n ∧
      recorded.map Recorded.output =
        Mealy.outputs (replayStep watchdog) watchdog.default (recorded.map Recorded.input) ∧
      recorded.flatMap (fun r => batchValues r.output) = delivered m.loop.calls :=
    live_recording task pick ring id target rt capacity clock turns hstage
  obtain rfl : alarms = recorded.flatMap fun r => batchValues r.output :=
    hdelivered.trans hvalues.symm
  have hkinds := kinds_iff (kinds_recorded hanswers)
  by_cases hfour : (recorded.flatMap fun r => batchValues r.output).length = 4
  · rw [if_pos hfour, main, Panics.assert_bind_of (hkinds.mpr hfour)]
    have hread' : readSteps ids open_ decode fuel logBase = pure recorded :=
      readSteps_written hcodec { id := 0, msgs := ring 0 } hslots hread hopen hfuel
    have harmed := armed_of_kinds (hkinds.mpr hfour)
    obtain ⟨pre, r, post, rfl, hr, hclear⟩ := clearArmed_of_mem harmed
    obtain ⟨report, hreplay, hpassed⟩ := replay_passes id b hids hwrap (by simp) hanswers
    obtain ⟨control, hcontrol, hfailed⟩ := replay_cleared id hbincode b hids hwrap hanswers hr
    simp only [hread', pure_bind, values_recorded, hreplay, hpassed, hclear,
      hcontrol, hfailed, Panics.assert_of]
  · rw [if_neg hfour, main, Panics.assert_bind_of_not (mt hkinds.mp hfour)]

end Runs

/-! ## A run with four alarms -/

instance : Encodable Feed := .ofLeftInverse Feed.seq Feed.mk fun _ => rfl

instance : Encodable Alarm :=
  .ofLeftInverse
    (fun
      | .armed => none
      | .tripped silentNs => some (some silentNs)
      | .recovered => some none)
    (fun
      | none => .armed
      | some (some silentNs) => .tripped silentNs
      | some none => .recovered)
    (by
      intro a
      cases a <;> rfl)

instance : Debug CuError := ⟨CuError.msg⟩

instance : Debug (List String) := ⟨toString⟩

instance : Debug GateReport where
  fmt report := "GateReport \x7b steps: " ++ toString report.steps ++ ", divergent: " ++
    toString report.divergent ++ " \x7d"

/-- A feed, a silence, another feed and another silence. -/
def fourAlarms : List (Threads.Turn Party Decision Nat) :=
  [.thread .driver .calm, .thread .feeder .calm] ++ List.replicate 8 .loop ++
    .ambient 60000000 :: List.replicate 8 .loop ++
    [.thread .feeder .calm, .thread .feeder .calm] ++ List.replicate 8 .loop ++
    .ambient 120000000 :: List.replicate 8 .loop

/-- The threads one after the other to their ends. -/
def threadsToTheEnd : List (Threads.Turn Party Decision Nat) :=
  List.replicate 5 (.thread .feeder .calm) ++ List.replicate 16 (.thread .driver .calm) ++
    List.replicate 12 (.thread .main .calm)

/-- On the log of this run `main` succeeds. -/
theorem main_passes_four :
    let m := liveRun { maxBatch := 1, maxBatch_pos := by decide } (fun _ => 0)
      (fun _ => (.new none, .new none)) 7 .linux .normal none 0 fourAlarms
    main .debug ["ingress", "watchdog", "egress"]
      (fun _ => .ok (.read (m.loop.mem.log.flatMap unary))) ofUnary
      ((m.loop.mem.log.flatMap unary).length + 1) "wd.copper"
      [.armed, .tripped 60000000, .recovered, .tripped 60000000] = pure () := by
  intro m
  have hbincode : NoneApart (Batch Alarm) := by
    refine ⟨[0], rfl, ?_⟩
    intro v h
    cases (List.cons.inj (Except.ok.inj h)).1
  have hrest : ∀ t ∈ threadsToTheEnd, t ≠ .loop := by
    intro t ht hloop
    subst hloop
    simp [threadsToTheEnd] at ht
  have hstage : m.loop.stage = 3 * 4 := by decide +kernel
  have hreturns : (endOfRun { maxBatch := 1, maxBatch_pos := by decide } (fun _ => 0)
      (fun _ => (.new none, .new none)) 7 .linux .normal none 0 fourAlarms
      threadsToTheEnd).pool.ended .main =
        some [.armed, .tripped 60000000, .recovered, .tripped 60000000] := by decide +kernel
  exact main_passes { maxBatch := 1, maxBatch_pos := by decide } (fun _ => 0)
    (fun _ => (.new none, .new none)) 7 .linux .normal none 0 fourAlarms codec_unary hbincode
    .debug rfl (n := 4) (by decide) hrest hstage hreturns _ "wd.copper" _ rfl
    (Nat.lt_succ_self _)

end WatchdogService

end Msrs
