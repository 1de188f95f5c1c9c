import Msrs.Echo.Live
import Msrs.Runtime.LogStream
import Msrs.Lib.Panics

/-!
# The `main` of the echo service

What `main` does after the live run: it reads the ingress cycles and the echoes back out of the log,
replays the cycles, and compares the replay with the logged echoes and, by `diff` on two files, the
live echoes with the replay.

`main_compares` — in every run it either panics because an echo is missing, or succeeds as far as
the operating system lets it.
-/

namespace Msrs

open Interleave Fifo Framing Debug

namespace EchoService

/-- The copperlists of the service. -/
abbrev EchoCopperList : Type := CopperList (Slots EchoMsg EchoMsg)

/-- One recorded ingress slot: a message, or an empty cycle at its logged time. -/
inductive RecordedInput where
  | message (body : String)
  | tick (ns : Nat)

namespace RecordedInput

def trigger : RecordedInput → Trigger EchoMsg
  | .message body => .message (.new body)
  | .tick ns => .tick ns

def isMessage : RecordedInput → Bool
  | .message _ => true
  | .tick _ => false

end RecordedInput

/-- Recorded per-copperlist payloads: the ingress input and the echo output. -/
structure Recording where
  ingressInputs : List RecordedInput
  echoOutputs : List String

/-- What `main` prints, and its exit code. -/
structure Exit where
  lines : List String
  code : Nat

/-- What `main` asks of the operating system: files of the temporary directory, by their names, and
`diff`. An error is its text. -/
structure Host where
  Files : Type
  read : Files → String → Option String
  /-- `std::fs::write` -/
  write : Files → String → String → Except String Files
  /-- Whether the status of `diff` on two files is a success. -/
  diff : Files → String → String → Except String Bool

/-- What `std::fs::write` and `diff` promise. -/
structure Host.Lawful (host : Host) : Prop where
  read_write {files files' : host.Files} {name text : String} :
    host.write files name text = .ok files' →
      host.read files' name = some text ∧ ∀ other, other ≠ name →
        host.read files' other = host.read files other
  diff_status {files : host.Files} {name name' text text' : String} {status : Bool} :
    host.diff files name name' = .ok status → host.read files name = some text →
      host.read files name' = some text' → (status = true ↔ text = text')

/-- The line on what the log held. -/
def recovered (cycles messages echoes : Nat) : String :=
  "[replay] recovered " ++ toString cycles ++ " ingress cycle(s) (" ++ toString messages ++
    " message(s)) and " ++ toString echoes ++ " echo output(s) from the log"

/-- The text of the file of a list of echoes. -/
def fileText (lines : List String) : String := "\n".intercalate lines ++ "\n"

/-- The end of a `main` that only the operating system can still stop: it cannot write one of the
two files or run `diff`. -/
def finish (host : Host) (files : host.Files) (cycles messages : Nat) (live : List String) :
    Panics Exit := do
  let files ← Panics.expect (host.write files "echo_live.txt" (fileText live)) "write live file"
  let files ← Panics.expect (host.write files "echo_replay.txt" (fileText live))
    "write replay file"
  let _ ← Panics.expect (host.diff files "echo_live.txt" "echo_replay.txt") "run diff"
  let lines := live.map ("[live] " ++ ·) ++ recovered cycles messages live.length ::
    live.map ("[replay] " ++ ·)
  return { lines := lines ++ ["REPLAY DETERMINISM: OK (diff empty)"], code := 0 }

theorem diff_of_same {host : Host} (hhost : host.Lawful) {files files₁ files₂ : host.Files}
    {text : String} {success : Bool} (hlive : host.write files "echo_live.txt" text = .ok files₁)
    (hreplay : host.write files₁ "echo_replay.txt" text = .ok files₂)
    (hdiff : host.diff files₂ "echo_live.txt" "echo_replay.txt" = .ok success) :
    success = true := by
  obtain ⟨hread, hother⟩ := hhost.read_write hreplay
  refine (hhost.diff_status hdiff ?_ hread).mpr rfl
  rw [hother "echo_live.txt" (by decide)]
  exact (hhost.read_write hlive).1

theorem bodies_replayed (log : List EchoCopperList) :
    (log.map fun cl => cl.msgs.2.payload).filterMap (fun out => out.map EchoMsg.body) =
      (log.flatMap fun cl => cl.msgs.2.payload.toList).map EchoMsg.body := by
  induction log with
  | nil => rfl
  | cons cl log ih =>
    rw [List.map_cons, List.filterMap_cons, List.flatMap_cons, List.map_append, ← ih]
    cases cl.msgs.2.payload <;> rfl

section Main

variable [Debug Tov]

/-- An ingress slot as `read_recorded` records it. -/
def recordedInput (ingress : CuMsg EchoMsg) : Panics RecordedInput :=
  match ingress.payload, ingress.tov with
  | some input, _ => return .message input.body
  | none, .time t => return .tick t
  | none, tov => throw ("ingress cycle recorded without a time: " ++ fmt tov)

/-- The decode loop of `read_recorded`: until the stream is exhausted, whatever the error. -/
def readSlots (decode : Decoder UInt8 EchoCopperList DecodeError) :
    Nat → Recording → List UInt8 → Panics Recording
  | 0, _, _ => none
  | fuel + 1, recorded, reader =>
    match decode reader with
    | .error _ => return recorded
    | .ok (cl, reader) => do
      let input ← recordedInput cl.msgs.1
      readSlots decode fuel
        { ingressInputs := recorded.ingressInputs ++ [input]
          echoOutputs := recorded.echoOutputs ++ (cl.msgs.2.payload.map EchoMsg.body).toList }
        reader

/-- `read_recorded`; `ids` are those of the generated `get_all_task_ids`. -/
def readRecorded [Debug (List String)] (ids : List String)
    (build : String → Except String UnifiedLogger)
    (decode : Decoder UInt8 EchoCopperList DecodeError) (fuel : Nat) (logBase : String) :
    Panics Recording := do
  Panics.assert (ids = ["ingress", "echo", "egress"])
    ("unexpected copperlist slot order: " ++ fmt ids)
  match ← Panics.expect (build logBase) "open unified log for reading" with
  | .write => throw "expected a read-only unified logger"
  | .read stream => readSlots decode fuel { ingressInputs := [], echoOutputs := [] } stream

/-- Reproduce the echoes by re-running the machine over the recorded ingress cycles. -/
def replay (inputs : List RecordedInput) : Panics (List String) :=
  match runSteps echo .default (inputs.map RecordedInput.trigger) with
  | .ok (_, outs) => return outs.filterMap fun out => out.map EchoMsg.body
  | .error e => throw e

/-- `main` after `run_live` has returned `live`. -/
def main [Debug (List String)] (host : Host) (files : host.Files) (ids : List String)
    (build : String → Except String UnifiedLogger)
    (decode : Decoder UInt8 EchoCopperList DecodeError) (fuel : Nat) (logBase : String)
    (inputs live : List String) : Panics Exit := do
  Panics.assert (live.length = inputs.length) "live run did not echo every input"
  let recorded ← readRecorded ids build decode fuel logBase
  let replayed ← replay recorded.ingressInputs
  Panics.assert (replayed = recorded.echoOutputs)
    "replay diverged from the echo outputs recorded in the log"
  let messages := recorded.ingressInputs.countP RecordedInput.isMessage
  let lines := live.map ("[live] " ++ ·) ++
    recovered recorded.ingressInputs.length messages recorded.echoOutputs.length ::
    replayed.map ("[replay] " ++ ·)
  let files ← Panics.expect (host.write files "echo_live.txt" (fileText live)) "write live file"
  let files ← Panics.expect (host.write files "echo_replay.txt" (fileText replayed))
    "write replay file"
  let success ← Panics.expect (host.diff files "echo_live.txt" "echo_replay.txt") "run diff"
  if success then
    return { lines := lines ++ ["REPLAY DETERMINISM: OK (diff empty)"], code := 0 }
  else
    return { lines := lines ++ ["REPLAY DETERMINISM: FAILED (diff non-empty)"], code := 1 }

/-! ## Reading the log back -/

/-- The recording has the slots of the log. -/
def Records (log : List EchoCopperList) (inputs : List RecordedInput) : Prop :=
  List.Forall₂ (fun cl input => recordedInput cl.msgs.1 = pure input) log inputs

/-- A slot that is replayed as a trigger is recorded as that trigger. -/
theorem recordedInput_of_trigger {ingress : CuMsg EchoMsg} {trigger : Trigger EchoMsg}
    (h : replayTrigger ingress = some trigger) :
    ∃ input, recordedInput ingress = pure input ∧ input.trigger = trigger ∧
      input.isMessage = ingress.payload.isSome := by
  obtain ⟨payload, tov⟩ := ingress
  cases payload with
  | some msg => exact ⟨.message msg.body, rfl, Option.some.inj h, rfl⟩
  | none =>
    cases tov with
    | time t => exact ⟨.tick t, rfl, Option.some.inj h, rfl⟩
    | none | range start stop => cases h

theorem records_of_triggers {log : List EchoCopperList} {triggers : List (Trigger EchoMsg)}
    (h : readTriggers log = some triggers) :
    ∃ inputs, Records log inputs ∧ inputs.map RecordedInput.trigger = triggers ∧
      inputs.countP RecordedInput.isMessage = (logged log).length := by
  induction log generalizing triggers with
  | nil =>
    obtain rfl : [] = triggers := Option.some.inj h
    exact ⟨[], .nil, rfl, rfl⟩
  | cons cl log ih =>
    obtain ⟨trigger, hfirst, triggers', hrest, rfl⟩ : ∃ trigger,
        replayTrigger cl.msgs.1 = some trigger ∧
        ∃ triggers', readTriggers log = some triggers' ∧ trigger :: triggers' = triggers := by
      simpa [readTriggers, List.mapM_cons, Option.bind_eq_some_iff] using h
    obtain ⟨input, hinput, rfl, hmessage⟩ := recordedInput_of_trigger hfirst
    obtain ⟨inputs, hrecords, rfl, hcount⟩ := ih hrest
    refine ⟨input :: inputs, .cons hinput hrecords, rfl, ?_⟩
    rw [List.countP_cons, hcount, length_logged, length_logged, List.countP_cons, hmessage]

theorem readSlots_decodes {decode : Decoder UInt8 EchoCopperList DecodeError}
    {stream rest : List UInt8} {log : List EchoCopperList} {e : DecodeError}
    (h : Decodes decode stream log rest) (hstop : decode rest = .error e)
    {inputs : List RecordedInput} (hrecords : Records log inputs) {fuel : Nat}
    (hfuel : log.length < fuel) (recorded : Recording) :
    readSlots decode fuel recorded stream = pure
      { ingressInputs := recorded.ingressInputs ++ inputs
        echoOutputs := recorded.echoOutputs ++
          (log.flatMap fun cl => cl.msgs.2.payload.toList).map EchoMsg.body } := by
  induction h generalizing inputs fuel recorded with
  | done stream =>
    obtain ⟨fuel, rfl⟩ := Nat.exists_eq_add_of_lt hfuel
    cases hrecords
    simp only [readSlots, hstop, List.append_nil, List.flatMap_nil, List.map_nil]
  | @next stream rest' rest cl log hok _ ih =>
    obtain ⟨fuel, rfl⟩ := Nat.exists_eq_add_of_lt hfuel
    cases hrecords with
    | @cons _ input _ inputs hinput hrecords =>
      rw [List.length_cons] at hfuel ⊢
      simp only [readSlots, hok, hinput, pure_bind]
      rw [ih hstop hrecords (by omega)]
      cases hout : cl.msgs.2.payload <;> simp [hout]

theorem readRecorded_written [Debug (List String)] {encode : EchoCopperList → List UInt8}
    {decode : Decoder UInt8 EchoCopperList DecodeError}
    (hcodec : Codec encode decode DecodeError.IsEnd) (cl₀ : EchoCopperList) {ids : List String}
    (hslots : ids = ["ingress", "echo", "egress"]) {log : List EchoCopperList}
    {inputs : List RecordedInput} (hrecords : Records log inputs)
    {build : String → Except String UnifiedLogger} {logBase : String} {fuel : Nat}
    (hbuild : build logBase = .ok (.read (log.flatMap encode)))
    (hfuel : (log.flatMap encode).length < fuel) :
    readRecorded ids build decode fuel logBase = pure
      { ingressInputs := inputs
        echoOutputs := (log.flatMap fun cl => cl.msgs.2.payload.toList).map EchoMsg.body } := by
  have hdecodes := hcodec.decodes log []
  rw [List.append_nil] at hdecodes
  -- Nothing is left of the stream, so the loop ends there.
  obtain ⟨e, hstop, -⟩ := hcodec.truncated cl₀ [] List.nil_prefix (hcodec.encode_ne_nil _).symm
  have hfuel' : log.length < fuel :=
    Nat.lt_of_le_of_lt (hdecodes.length_le hcodec.shrinks) hfuel
  rw [readRecorded, Panics.assert_bind_of hslots, hbuild, Panics.expect_ok, pure_bind]
  exact readSlots_decodes hdecodes hstop hrecords hfuel' _

theorem main_finishes [Debug (List String)] {host : Host} (hhost : host.Lawful)
    (files : host.Files) {ids : List String} {build : String → Except String UnifiedLogger}
    {decode : Decoder UInt8 EchoCopperList DecodeError} {fuel : Nat} {logBase : String}
    {inputs live : List String} {cycles : List RecordedInput}
    (hread : readRecorded ids build decode fuel logBase =
      pure { ingressInputs := cycles, echoOutputs := live })
    (hreplay : replay cycles = pure live) (hmany : live.length = inputs.length) :
    main host files ids build decode fuel logBase inputs live =
      finish host files cycles.length (cycles.countP RecordedInput.isMessage) live := by
  rw [main, Panics.assert_bind_of hmany, hread, pure_bind, hreplay, pure_bind,
    Panics.assert_bind_of rfl, finish]
  cases hlive : host.write files "echo_live.txt" (fileText live) with
  | error e => rfl
  | ok files₁ =>
    simp only [Panics.expect_ok, pure_bind]
    cases hreplayed : host.write files₁ "echo_replay.txt" (fileText live) with
    | error e => rfl
    | ok files₂ =>
      simp only [Panics.expect_ok, pure_bind]
      cases hdiff : host.diff files₂ "echo_live.txt" "echo_replay.txt" with
      | error e => rfl
      | ok success =>
        rw [diff_of_same hhost hlive hreplayed hdiff]
        rfl

section Runs

variable (pick : Nat → Nat) (ring : Nat → Slots EchoMsg EchoMsg) (id : UInt64) (target : TargetOs)
  (rt : RtConfig) (inputs : List String) (capacity : Capacity) (clock : Nat)
  (turns : List (Threads.Turn EchoParty Decision Nat))

/-- After `n` iterations the log records `n` ingress cycles, and their replay is the logged
echoes. -/
theorem live_recording {n : Nat} :
    let m := Feeder.live pick ring id target rt inputs capacity clock turns
    m.loop.stage = 3 * n →
      ∃ cycles, Records m.loop.mem.log cycles ∧ cycles.length = n ∧
        cycles.countP RecordedInput.isMessage = (logged m.loop.mem.log).length ∧
        replay cycles = pure
          ((m.loop.mem.log.flatMap fun cl => cl.msgs.2.payload.toList).map EchoMsg.body) := by
  intro m hstage
  obtain ⟨sched, hloop⟩ : ∃ sched, m.loop = messageRun echo pick ring id capacity clock sched :=
    (Feeder.program target rt inputs).run_loop (messages echo).dag pick _ _ turns
  clear_value m
  rw [hloop] at hstage ⊢
  have hlength := length_messageRun echo pick ring id capacity clock sched hstage
  have hafter : Pipeline.After (messageContract echo) (FsmTask.default echo) id n
      (messageRun echo pick ring id capacity clock sched) :=
    Pipeline.after_iterations (messages_meets echo) pick _ ring id rfl sched hstage
  obtain ⟨triggers, hread, -, houtputs⟩ :=
    messageContract_run echo (FsmTask.default echo) hafter.filled
  rw [List.mapM_map] at hread
  obtain ⟨cycles, hrecords, rfl, hcount⟩ := records_of_triggers hread
  refine ⟨cycles, hrecords, hrecords.length_eq.symm.trans hlength, hcount, ?_⟩
  have hreplay : runSteps echo EchoMachine.default (cycles.map RecordedInput.trigger) = _ :=
    runSteps_eq echo_emitsAtMostOnce _ _
  rw [replay, hreplay, ← bodies_replayed, hafter.outputs, houtputs,
    map_single echo_emitsAtMostOnce]
  rfl

variable [Debug (List String)]

/-- **Only a missing echo can fail.** Take any run of the service: any order of the moves of the
runtime and the two threads for `n` iterations, any order of what the threads do after `main` has
dropped the application, and any timeouts, until `run_live` has returned. On the log that was
written, with the tasks in the expected slots, the rest of `main` panics with its first message if
an echo is missing. If none is, then the live echoes are `echo 1: ..`, `echo 2: ..` of the inputs in
order; `main` recovers `n` cycles with a message for each input and its echo, the replay reproduces
the logged echoes, and it succeeds, unless it cannot write one of the two files or run `diff`. -/
theorem main_compares {encode : EchoCopperList → List UInt8}
    {decode : Decoder UInt8 EchoCopperList DecodeError}
    (hcodec : Codec encode decode DecodeError.IsEnd) {host : Host} (hhost : host.Lawful)
    (files : host.Files) {ids : List String} (hslots : ids = ["ingress", "echo", "egress"])
    (hfew : inputs.length < 2 ^ 64) {n : Nat}
    {later : List (Threads.Turn EchoParty Decision Nat)} (hrest : ∀ t ∈ later, t ≠ .loop)
    {bodies : List String} :
    let m := Feeder.live pick ring id target rt inputs capacity clock turns
    m.loop.stage = 3 * n →
    (Feeder.closing pick ring id target rt inputs capacity clock turns later).pool.ended .main =
      some bodies →
    (bodies.length = inputs.length →
      bodies = (echoes 0 (inputs.map .new)).map EchoMsg.body) ∧
    ∀ build logBase fuel, build logBase = .ok (.read (m.loop.mem.log.flatMap encode)) →
      (m.loop.mem.log.flatMap encode).length < fuel →
      main host files ids build decode fuel logBase inputs bodies =
        if bodies.length = inputs.length then finish host files n inputs.length bodies
        else throw "live run did not echo every input" := by
  intro m hstage hreturns
  obtain ⟨cycles, hrecords, hcycles, hcount, hreplay⟩ : ∃ cycles, Records m.loop.mem.log cycles ∧
      cycles.length = n ∧
      cycles.countP RecordedInput.isMessage = (logged m.loop.mem.log).length ∧
      replay cycles = pure
        ((m.loop.mem.log.flatMap fun cl => cl.msgs.2.payload.toList).map EchoMsg.body) :=
    live_recording pick ring id target rt inputs capacity clock turns hstage
  obtain ⟨-, hall⟩ : _ ∧ (bodies.length = inputs.length →
      bodies = (echoes 0 (inputs.map .new)).map EchoMsg.body ∧
      (logged m.loop.mem.log).length = inputs.length ∧
      (m.loop.mem.log.flatMap fun cl => cl.msgs.2.payload.toList).map EchoMsg.body = bodies) :=
    Feeder.live_numbered pick ring id target rt inputs capacity clock turns hfew hrest hstage
      hreturns
  refine ⟨fun hmany => (hall hmany).1, fun build logBase fuel hbuild hfuel => ?_⟩
  by_cases hmany : bodies.length = inputs.length
  · obtain ⟨-, hlogged, houtputs⟩ := hall hmany
    have hrecorded := readRecorded_written hcodec { id := 0, msgs := ring 0 } hslots hrecords
      hbuild hfuel
    rw [houtputs] at hrecorded hreplay
    rw [if_pos hmany, main_finishes hhost files hrecorded hreplay hmany, hcycles, hcount, hlogged]
  · rw [if_neg hmany, main, Panics.assert_bind_of_not hmany]

end Runs

end Main

/-! ## A run with two echoes -/

instance : Encodable EchoMsg :=
  .ofLeftInverse (fun msg => msg.body.toList.map Char.toNat)
    (fun codes => ⟨String.ofList (codes.map Char.ofNat)⟩) (by
      intro msg
      simp [Function.comp_def])

instance : Debug Tov where
  fmt
    | .none => "None"
    | .time t => "Time(" ++ toString t ++ ")"
    | .range start stop => "Range(" ++ toString start ++ ", " ++ toString stop ++ ")"

instance : Debug (List String) := ⟨toString⟩

/-- A temporary directory that can be written, and a `diff` that compares. -/
def tempDir : Host where
  Files := String → Option String
  read files name := files name
  write files name text := .ok (Function.update files name (some text))
  diff files name name' := .ok (files name == files name')

theorem lawful_tempDir : tempDir.Lawful where
  read_write {files files' name text} h := by
    obtain rfl : Function.update files name (some text) = files' := Except.ok.inj h
    exact ⟨Function.update_self _ _ _, fun other hne => Function.update_of_ne hne _ _⟩
  diff_status {files name name' text text' status} h hname hname' := by
    obtain rfl : (files name == files name') = status := Except.ok.inj h
    rw [show files name = some text from hname, show files name' = some text' from hname']
    simp

/-- On the log of this run `main` succeeds. -/
theorem main_compares_hello :
    let m := Feeder.live (fun _ => 0) (fun _ => (.new none, .new none)) 7 .linux .normal
      ["hello", "world"] none 0
      ([.thread .driver .calm, .thread .driver .calm] ++ List.replicate 14 .loop)
    main tempDir (fun _ => none) ["ingress", "echo", "egress"]
      (fun _ => .ok (.read (m.loop.mem.log.flatMap unary))) ofUnary
      ((m.loop.mem.log.flatMap unary).length + 1) "echo.copper" ["hello", "world"]
      ["echo 1: hello", "echo 2: world"] = pure
        { lines := ["[live] echo 1: hello", "[live] echo 2: world",
            "[replay] recovered 2 ingress cycle(s) (2 message(s)) and 2 echo output(s) from the log",
            "[replay] echo 1: hello", "[replay] echo 2: world",
            "REPLAY DETERMINISM: OK (diff empty)"]
          code := 0 } := by
  intro m
  obtain ⟨-, hmain⟩ := main_compares (fun _ => 0) (fun _ => (.new none, .new none)) 7 .linux .normal
    ["hello", "world"] none 0
    ([.thread .driver .calm, .thread .driver .calm] ++ List.replicate 14 .loop) codec_unary
    lawful_tempDir (fun _ => none) rfl (by decide) (n := 2)
    (Threads.forall_turns (f := Feeder.roundRobin) (P := fun t => t ≠ .loop)
      (fun k hloop => by cases hloop) 20)
    rfl (by rfl : _ = some ["echo 1: hello", "echo 2: world"])
  have h := hmain (fun _ => .ok (.read (m.loop.mem.log.flatMap unary))) "echo.copper"
    ((m.loop.mem.log.flatMap unary).length + 1) rfl (Nat.lt_succ_self _)
  exact h.trans (if_pos rfl)

end EchoService

end Msrs
