import Msrs.Core.FsmTask

/-!
# The step adapters agree

A machine is stepped in four ways: by `FsmTask` and `FsmBatchTask` in production, by `run_step`
and `run_step_all` in tests and in replays. Their outputs have different shapes and they treat
more than one emission differently, but over any run they keep the machine in the same state and
report the same emissions (`adapters_agree`), also after an error and on output slots that hold
something old.
-/

namespace Msrs

open Interleave

variable {σ In Out T U S B : Type}

/-! ## Runs -/

/-- One turn of a task: an input slot and the trigger that is built from it. -/
structure Turn (In : Type) where
  input : CuMsg In
  trigger : Trigger In

/-- A task run over some turns, each on an output slot with any content and each whatever the
one before it returned. A turn ends with the task, its output slot and its result. -/
inductive Runs (process : S → CuMsg In → CuMsg B → Io T U (S × CuMsg B × CuResult)) :
    S → List (Turn In) → List (S × CuMsg B × CuResult) → Prop
  | nil (self : S) : Runs process self [] []
  | cons {self self' : S} {turn : Turn In} {turns : List (Turn In)} {slot slot' : CuMsg B}
      {r : CuResult} {rest : List (S × CuMsg B × CuResult)} {cs ds : List (Call (Op T U) Op.Res)} :
      (triggerFor turn.input).Yields cs turn.trigger →
      (process self turn.input slot).Yields (cs ++ ds) (self', slot', r) →
      Runs process self' turns rest →
      Runs process self (turn :: turns) ((self', slot', r) :: rest)

/-- A task that begins by building its trigger can be run over all turns. -/
theorem exists_run {process : S → CuMsg In → CuMsg B → Io T U (S × CuMsg B × CuResult)}
    {rest : S → CuMsg B → Trigger In → Io T U (S × CuMsg B × CuResult)}
    (hprocess : ∀ self input slot, process self input slot = triggerFor input >>= rest self slot)
    (self : S) {turns : List (Turn In)}
    (hturns : ∀ turn ∈ turns, ∃ cs : List (Call (Op T U) Op.Res),
      (triggerFor turn.input).Yields cs turn.trigger) (slot : CuMsg B) :
    ∃ outs, Runs process self turns outs := by
  induction turns generalizing self with
  | nil => exact ⟨[], .nil self⟩
  | cons turn turns ih =>
    obtain ⟨⟨cs, htrig⟩, hrest⟩ := List.forall_mem_cons.mp hturns
    obtain ⟨ds, ⟨self', slot', r⟩, hds⟩ :=
      Prog.exists_yields Op.someRes (rest self slot turn.trigger)
    have hyields : (process self turn.input slot).Yields (cs ++ ds) (self', slot', r) := by
      rw [hprocess]
      exact (Prog.yields_bind _ _ _ _).mpr ⟨_, cs, ds, rfl, htrig, hds⟩
    obtain ⟨outs, houts⟩ := ih self' hrest
    exact ⟨(self', slot', r) :: outs, .cons htrig hyields houts⟩

/-! ## `run_step` against `run_step_all` -/

namespace FsmSpec

variable {M : FsmSpec σ In Out}

theorem runStep_fst (s : σ) (t : Trigger In) : (M.runStep s t).1 = (M.runStepAll s t).1 := by
  unfold runStep
  rw [show M.step s t .default = ((M.step s t .default).1, (M.step s t .default).2) from rfl]
  dsimp only
  cases (M.step s t .default).2.takeOne.1 with
  | ok out => rfl
  | error e => rfl

theorem runStep_panic {s : σ} {t : Trigger In} (h : 1 < (M.runStepAll s t).2.length) :
    (M.runStep s t).2 =
      .error ({ emitted := (M.runStepAll s t).2.length } : ExtraEmits).toString := by
  have hmore : (M.step s t .default).2.takeOne.1 =
      .error { emitted := (M.runStepAll s t).2.length } := Effects.takeOne_of_one_lt h
  unfold runStep
  rw [show M.step s t .default = ((M.step s t .default).1, (M.step s t .default).2) from rfl]
  simp only [hmore]

theorem runStep_panics (s : σ) (t : Trigger In) :
    (∃ text, (M.runStep s t).2 = .error text) ↔ 1 < (M.runStepAll s t).2.length := by
  refine ⟨fun h => ?_, fun h => ?_⟩
  · obtain ⟨text, h⟩ := h
    by_contra hle
    rw [M.runStep_eq (by omega)] at h
    cases h
  · exact ⟨_, runStep_panic h⟩

end FsmSpec

/-! ## One turn -/

theorem FsmTask.Forwards.fails {output output' : CuMsg Out} {vs : List Out}
    {cs : List (Call (Op T U) Op.Res)} {r : CuResult} (h : Forwards output vs cs output' r) :
    (∃ e, r = .error e) ↔ 1 < vs.length := by
  cases h with
  | nothing | one v t => simp
  | more vs hmore => simp [hmore]

theorem FsmBatchTask.Forwards.payload {output output' : CuMsg (Batch Out)} {vs : List Out}
    {cs : List (Call (Op T U) Op.Res)} (h : Forwards output vs cs output') :
    (output'.payload = none ↔ vs = []) ∧ (vs ≠ [] → output'.payload = some { values := vs }) := by
  cases h with
  | nothing => simp
  | batch vs hne t => simp [hne]

/-- What one turn of `FsmTask`, of `FsmBatchTask`, of `run_step` and of `run_step_all` ended
with, when the four agree. -/
structure Agree (one : FsmTask σ × CuMsg Out × CuResult)
    (batch : FsmBatchTask σ × CuMsg (Batch Out) × CuResult)
    (step : σ × Except String (Option Out)) (all : σ × List Out) : Prop where
  state_one : one.1.machine = all.1
  state_batch : batch.1.machine = all.1
  state_step : step.1 = all.1
  batch_none : batch.2.1.payload = none ↔ all.2 = []
  batch_some : all.2 ≠ [] → batch.2.1.payload = some { values := all.2 }
  batch_ok : batch.2.2 = .ok ()
  /-- The task fails where `run_step` panics. -/
  error_iff_panic : (∃ e, one.2.2 = .error e) ↔ ∃ text, step.2 = .error text
  panic_iff : (∃ text, step.2 = .error text) ↔ 1 < all.2.length
  error_payload : ∀ e, one.2.2 = .error e → one.2.1.payload = none
  ok_payload : one.2.2 = .ok () →
    step.2 = .ok one.2.1.payload ∧ one.2.1.payload = all.2.head?

variable {M : FsmSpec σ In Out}

theorem agree_turn {s : σ} {turn : Turn In} {a a' : FsmTask σ} {b b' : FsmBatchTask σ}
    {slot slot' : CuMsg Out} {bslot bslot' : CuMsg (Batch Out)} {r r' : CuResult}
    {cs ds cs' ds' : List (Call (Op T U) Op.Res)} (ha : a.machine = s) (hb : b.machine = s)
    (htrig : (triggerFor turn.input).Yields cs turn.trigger)
    (hone : (FsmTask.process M a turn.input slot).Yields (cs ++ ds) (a', slot', r))
    (htrig' : (triggerFor turn.input).Yields cs' turn.trigger)
    (hbatch : (FsmBatchTask.process M b turn.input bslot).Yields (cs' ++ ds') (b', bslot', r')) :
    Agree (a', slot', r) (b', bslot', r') (M.runStep s turn.trigger)
      (M.runStepAll s turn.trigger) := by
  obtain ⟨hmachine, _, hforw⟩ := FsmTask.yields_turn htrig hone
  obtain ⟨hmachine', hok, _, hforw'⟩ := FsmBatchTask.yields_turn htrig' hbatch
  rw [ha] at hmachine hforw
  rw [hb] at hmachine' hforw'
  have hpayload := hforw.payload
  have hpanics := M.runStep_panics s turn.trigger
  refine ⟨hmachine, hmachine', M.runStep_fst s turn.trigger, hforw'.payload.1, hforw'.payload.2,
    hok, hforw.fails.trans hpanics.symm, hpanics, ?_, ?_⟩
  · intro e he
    have hmore := hforw.fails.mp ⟨e, he⟩
    rw [single, if_neg (by omega)] at hpayload
    exact hpayload
  · intro hr
    have hle : (M.runStepAll s turn.trigger).2.length ≤ 1 := by
      by_contra hmore
      obtain ⟨e, he⟩ := hforw.fails.mpr (by omega)
      cases hr.symm.trans he
    rw [single, if_pos hle] at hpayload
    refine ⟨?_, hpayload⟩
    rw [M.runStep_eq hle, hpayload]

/-! ## Every run -/

theorem exists_runs (M : FsmSpec σ In Out) (s : σ) {turns : List (Turn In)}
    (hturns : ∀ turn ∈ turns, ∃ cs : List (Call (Op T U) Op.Res),
      (triggerFor turn.input).Yields cs turn.trigger) :
    (∃ one, Runs (FsmTask.process (T := T) (U := U) M) { machine := s } turns one) ∧
      ∃ batch, Runs (FsmBatchTask.process (T := T) (U := U) M) { machine := s } turns batch :=
  ⟨exists_run (fun _ _ _ => rfl) _ hturns (.new none),
    exists_run (fun _ _ _ => rfl) _ hturns (.new none)⟩

/-- Tasks that start from the machine in one state agree over every run. -/
theorem runs_agree {s : σ} {turns : List (Turn In)} {a : FsmTask σ} {b : FsmBatchTask σ}
    {one : List (FsmTask σ × CuMsg Out × CuResult)}
    {batch : List (FsmBatchTask σ × CuMsg (Batch Out) × CuResult)}
    (ha : a.machine = s) (hb : b.machine = s)
    (hone : Runs (FsmTask.process (T := T) (U := U) M) a turns one)
    (hbatch : Runs (FsmBatchTask.process (T := T) (U := U) M) b turns batch) :
    one.length = turns.length ∧ batch.length = turns.length ∧
      ∀ i, i < turns.length → ∃ x y step all, one[i]? = some x ∧ batch[i]? = some y ∧
        (Mealy.trace M.runStep s (turns.map Turn.trigger))[i]? = some step ∧
        (Mealy.trace M.runStepAll s (turns.map Turn.trigger))[i]? = some all ∧
        Agree x y step all := by
  induction hone generalizing s b batch with
  | nil a =>
    cases hbatch
    exact ⟨rfl, rfl, fun i hi => absurd hi (Nat.not_lt_zero i)⟩
  | cons htrig hproc _ ih =>
    cases hbatch with
    | cons htrig' hproc' hrest' =>
      have hagree := agree_turn ha hb htrig hproc htrig' hproc'
      obtain ⟨hlen, hlen', hall⟩ := ih hagree.state_one hagree.state_batch hrest'
      refine ⟨congrArg Nat.succ hlen, congrArg Nat.succ hlen', ?_⟩
      intro i hi
      cases i with
      | zero => exact ⟨_, _, _, _, rfl, rfl, rfl, rfl, hagree⟩
      | succ i =>
        obtain ⟨x, y, step, all, hx, hy, hstep, hall, h⟩ := hall i (Nat.lt_of_succ_lt_succ hi)
        refine ⟨x, y, step, all, hx, hy, ?_, hall, h⟩
        rw [List.map_cons, Mealy.trace, M.runStep_fst]
        exact hstep

/-- **The adapters agree.** From one state and over one list of triggers, however the clocks run
and whatever the output slots hold, the four ways to step a machine end every turn in the same
state and with the same emissions, also when earlier turns have failed. -/
theorem adapters_agree (M : FsmSpec σ In Out) {s : σ} {turns : List (Turn In)}
    {one : List (FsmTask σ × CuMsg Out × CuResult)}
    {batch : List (FsmBatchTask σ × CuMsg (Batch Out) × CuResult)}
    (hone : Runs (FsmTask.process (T := T) (U := U) M) { machine := s } turns one)
    (hbatch : Runs (FsmBatchTask.process (T := T) (U := U) M) { machine := s } turns batch) :
    let triggers := turns.map Turn.trigger
    one.length = turns.length ∧ batch.length = turns.length ∧
      ∀ i, i < turns.length → ∃ x y step all, one[i]? = some x ∧ batch[i]? = some y ∧
        (Mealy.trace M.runStep s triggers)[i]? = some step ∧
        (Mealy.trace M.runStepAll s triggers)[i]? = some all ∧ Agree x y step all :=
  runs_agree rfl rfl hone hbatch

/-- Emits twice per message. -/
def doubleEmitter : FsmSpec Unit UInt32 UInt32 where
  default := ()
  step s trigger effects :=
    match trigger with
    | .message v => (s, (effects.emit v).emit (v + 1))
    | .tick _ => (s, effects)

/-- A message, and then an empty slot whose tick is read off the clock. -/
def doubleTurns : List (Turn UInt32) := [⟨.new (some 1), .message 1⟩, ⟨.new none, .tick 999⟩]

/-- The message is an error of one task and a batch of the other; both run on. -/
theorem adapters_agree_double :
    let triggers := doubleTurns.map Turn.trigger
    ∀ i, i < 2 → ∃ x y step all,
      [({ machine := () }, .new none,
          .error { msg := ({ emitted := 2 } : ExtraEmits).toString }),
        ({ machine := () }, .new none, .ok ())][i]? = some x ∧
      [({ machine := () }, { payload := some { values := [1, 2] }, tov := .time 7 }, .ok ()),
        ({ machine := () }, .new none, .ok ())][i]? = some y ∧
      (Mealy.trace doubleEmitter.runStep () triggers)[i]? = some step ∧
      (Mealy.trace doubleEmitter.runStepAll () triggers)[i]? = some all ∧ Agree x y step all := by
  have hmessage : (triggerFor (.new (some 1)) : Io Unit Unit (Trigger UInt32)).Yields []
      (.message 1) := rfl
  have hclock : (triggerFor (.new none) : Io Unit Unit (Trigger UInt32)).Yields
      [⟨.now, (999 : Nat)⟩] (.tick 999) := ⟨_, rfl, rfl⟩
  have hfail : (FsmTask.process (T := Unit) (U := Unit) doubleEmitter { machine := () }
      (.new (some 1)) (.new none)).Yields ([] ++ []) ({ machine := () }, .new none,
        .error { msg := ({ emitted := 2 } : ExtraEmits).toString }) := rfl
  have htick : (FsmTask.process (T := Unit) (U := Unit) doubleEmitter { machine := () }
      (.new none) (.new none)).Yields ([⟨.now, (999 : Nat)⟩] ++ [])
        ({ machine := () }, .new none, .ok ()) := ⟨_, rfl, rfl⟩
  have hbatch : (FsmBatchTask.process (T := Unit) (U := Unit) doubleEmitter { machine := () }
      (.new (some 1)) (.new none)).Yields ([] ++ [⟨.now, (7 : Nat)⟩])
        ({ machine := () }, { payload := some { values := [1, 2] }, tov := .time 7 }, .ok ()) :=
    ⟨_, rfl, rfl⟩
  have hbtick : (FsmBatchTask.process (T := Unit) (U := Unit) doubleEmitter { machine := () }
      (.new none) (.new none)).Yields ([⟨.now, (999 : Nat)⟩] ++ [])
        ({ machine := () }, .new none, .ok ()) := ⟨_, rfl, rfl⟩
  have hone : Runs (FsmTask.process doubleEmitter) { machine := () } doubleTurns _ :=
    .cons hmessage hfail (.cons hclock htick (.nil _))
  have hall : Runs (FsmBatchTask.process doubleEmitter) { machine := () } doubleTurns _ :=
    .cons hmessage hbatch (.cons hclock hbtick (.nil _))
  exact (adapters_agree doubleEmitter hone hall).2.2

end Msrs
