import Msrs.Runtime.Dag
import Msrs.Lib.Stages

/-!
# The outbound stream

An egress task run in a loop, on any inputs, while the transport may drop its receiver at any
moment and the caller goes on after errors. What the outbound channel accepts is a prefix of all
values in order, an iteration fails exactly when it could not send everything, and how the
values are cut into iterations makes no difference (`outbound_stream`).
-/

namespace Msrs

open Interleave Fifo

variable {T U B : Type}

/-- An egress task in a loop: iteration `k` forwards `inputs k`, and the results are kept. -/
def egressLoop (egress : Egress U B) (inputs : Nat → CuMsg B) (k : Nat)
    (results : List CuResult) : Io T U (List CuResult) := do
  let r ← egress.process (inputs k)
  return results ++ [r]

/-- A run of an egress task on an outbound channel nobody has used. -/
def egressRun (egress : Egress U B) (inputs : Nat → CuMsg B) (inbound : Chan T) (clock : Nat)
    (sched : Schedule T U) :
    Shared.Config (Op T U) Op.Res (Act T U) Bool (Bridge T U) (List CuResult) :=
  (bridge T U).run (egressLoop egress inputs)
    (Shared.start (egressLoop egress inputs) [] (TransportDriver.spawnWith inbound clock)) sched

/-- The values of the first `n` inputs, in order. -/
def outboundValues (egress : Egress U B) (inputs : Nat → CuMsg B) (n : Nat) : List U :=
  (List.range n).flatMap fun k => egress.values (inputs k).payload

variable {egress : Egress U B} {inputs : Nat → CuMsg B}

theorem outboundValues_succ (n : Nat) : outboundValues egress inputs (n + 1) =
    outboundValues egress inputs n ++ egress.values (inputs n).payload := by
  rw [outboundValues, List.range_succ, List.flatMap_append, List.flatMap_singleton]
  rfl

theorem outboundValues_ones {ones : Nat → CuMsg U} {v : Nat → U}
    (hones : ∀ k, (ones k).payload = some (v k)) (n : Nat) :
    outboundValues .egressTask ones n = (List.range n).map v := by
  simp [outboundValues, Egress.values, hones, List.map_eq_flatMap]

/-! ## One iteration -/

theorem yields_egressLoop {k : Nat} {results results' : List CuResult} {cs : List (IoCall T U)}
    (h : (egressLoop egress inputs k results).Yields cs results') :
    ∃ r, Sends (egress.values (inputs k).payload) cs r ∧ results' = results ++ [r] := by
  obtain ⟨r, hr, rfl⟩ := (Prog.yields_bind_ret _ _ _ _).mp h
  exact ⟨r, Egress.yields_process hr, rfl⟩

theorem follows_egressLoop {k : Nat} {results : List CuResult} {cs : List (IoCall T U)}
    {q : Io T U (List CuResult)} (h : (egressLoop egress inputs k results).Follows cs q) :
    delivered cs <+: egress.values (inputs k).payload := by
  obtain ⟨ds, results', hend⟩ := h.exists_yields Op.someRes
  obtain ⟨r, hsends, -⟩ := yields_egressLoop hend
  refine List.IsPrefix.trans ?_ hsends.accepted.1
  rw [delivered_append]
  exact List.prefix_append _ _

/-- Where the stream is when iteration `k` begins: complete so far, or a prefix that has come to
its end. -/
structure StreamInv (egress : Egress U B) (inputs : Nat → CuMsg B) (k : Nat) (w : Bridge T U)
    (cs : List (IoCall T U)) : Prop where
  isPrefix : delivered cs <+: outboundValues egress inputs k
  complete : w.outbound.rx = true → delivered cs = outboundValues egress inputs k

/-- More labels, of which at most the values `vs` are accepted. -/
theorem StreamInv.extend {k : Nat} {w w' : Bridge T U} {cs : List (IoCall T U)}
    {ls : List (Event T U)} (h : StreamInv egress inputs k w cs)
    (hlegal : (bridge T U).Legal w ls w')
    (hpre : delivered (calls ls) <+: egress.values (inputs k).payload) :
    delivered (cs ++ calls ls) <+: outboundValues egress inputs (k + 1) := by
  rw [delivered_append, outboundValues_succ]
  cases hrx : w.outbound.rx with
  | true =>
    rw [h.complete hrx]
    exact (List.prefix_append_right_inj _).mpr hpre
  | false =>
    rw [(rx_law hlegal hrx).2, List.append_nil]
    exact h.isPrefix.trans (List.prefix_append _ _)

theorem StreamInv.step {k : Nat} {w w' : Bridge T U} {cs : List (IoCall T U)}
    {ls : List (Event T U)} {results results' : List CuResult} (h : StreamInv egress inputs k w cs)
    (hran : Shared.Ran (bridge T U) (egressLoop egress inputs k results) w ls w' results') :
    StreamInv egress inputs (k + 1) w' (cs ++ calls ls) := by
  obtain ⟨r, hsends, -⟩ := yields_egressLoop hran.yields
  refine ⟨h.extend hran.legal hsends.accepted.1, ?_⟩
  intro hrx
  have hbefore : w.outbound.rx = true := by
    by_contra hne
    rw [(rx_law hran.legal ((Bool.not_eq_true _).mp hne)).1] at hrx
    cases hrx
  have hall := delivered_eq_sent hran.legal hrx
  rw [delivered_append, outboundValues_succ, h.complete hbefore, hall, (hsends.complete hall).1]

/-! ## Runs -/

section Run

variable (egress inputs) (inbound : Chan T) (clock : Nat) (sched : Schedule T U)

theorem delivered_isPrefix :
    let m := egressRun egress inputs inbound clock sched
    delivered m.calls <+: outboundValues egress inputs (m.stage + 1) := by
  intro m
  obtain ⟨w₀, h₀, ls, hinv, hrun, hhist, -⟩ := Shared.run_rule (bridge T U)
    (egressLoop egress inputs)
    (J := fun k _ w h => StreamInv egress inputs k w (calls (h.map Prod.snd)))
    (s := []) (w := TransportDriver.spawnWith inbound clock)
    ⟨List.nil_prefix, fun _ => rfl⟩
    (fun k results w h ls w' results' hinv _ hran => by
      rw [List.map_append, Shared.map_snd_stamp, calls_append]
      exact hinv.step hran) sched
  change m.hist = _ at hhist
  rw [Shared.Config.calls, hhist, List.map_append, Shared.map_snd_stamp, calls_append]
  exact hinv.extend hrun.legal (follows_egressLoop hrun.follows)

/-- Each finished iteration sent its values up to the first failure. -/
theorem finished_sends :
    let m := egressRun egress inputs inbound clock sched
    ∀ i, i < m.stage → ∃ r, m.mem[i]? = some r ∧
      Sends (egress.values (inputs i).payload) (calls (m.ofStage i)) r := by
  intro m i hi
  obtain ⟨f, ⟨hlength, hsends⟩, hcalls⟩ := Shared.run_rule_stages (bridge T U)
    (egressLoop egress inputs)
    (J := fun k results f => results.length = k ∧ ∀ i r, results[i]? = some r →
      Sends (egress.values (inputs i).payload) (f i) r)
    (s := []) (w := TransportDriver.spawnWith inbound clock)
    ⟨rfl, by simp⟩
    (fun k results f ds results' h hyields => by
      obtain ⟨hlength, hsends⟩ := h
      obtain ⟨r, hr, rfl⟩ := yields_egressLoop hyields
      refine ⟨by simp [hlength], ?_⟩
      intro i r' hget
      rcases Mealy.getElem?_snoc.mp hget with hget | ⟨hlast, rfl⟩
      · have hlt := (List.getElem?_eq_some_iff.mp hget).1
        rw [Function.update_of_ne (by omega)]
        exact hsends i r' hget
      · have hk : i = k := hlast.trans hlength
        rw [hk, Function.update_self]
        exact hr) sched
  change m.mem.length = m.stage at hlength
  have hget : m.mem[i]? = some m.mem[i] := List.getElem?_eq_getElem (by omega)
  have hf : calls (m.ofStage i) = f i := hcalls i (Nat.ne_of_lt hi)
  exact ⟨_, hget, hf ▸ hsends i _ hget⟩

end Run

/-- The transport gives up its receiver. -/
def Event.Disconnects : Event T U → Prop
  | .env .dropRx _ => True
  | .env (.exit _) done => done = true
  | _ => False

theorem delivered_after {w w' : Bridge T U} {e : Event T U} {ls : List (Event T U)}
    (he : e.Disconnects) (h : (bridge T U).Legal w (e :: ls) w') :
    delivered (calls (e :: ls)) = [] := by
  cases e with
  | call c => exact absurd he id
  | env a done =>
    obtain ⟨hdone, hrest⟩ := h
    have hgone : (w.act a).2.outbound.rx = false := by
      cases a with
      | dropRx => rfl
      | exit r =>
        cases hjoin : w.join with
        | none => simp [Bridge.act, hjoin]
        | some r' =>
          have hnot : false = done := by simpa [bridge, Bridge.act, hjoin] using hdone
          rw [show done = true from he] at hnot
          cases hnot
      | send m | trySend m | recv | dropTx | clock t => exact absurd he id
    exact (rx_law hrest hgone).2

/-- What was accepted up to a disconnection is all that is ever accepted. -/
theorem delivered_at_disconnection {inbound : Chan T} {clock : Nat} {sched : Schedule T U}
    {pre post : List (Nat × Event T U)} {k : Nat} {e : Event T U} (he : e.Disconnects)
    (h : (egressRun egress inputs inbound clock sched).hist = pre ++ (k, e) :: post) :
    delivered (egressRun egress inputs inbound clock sched).calls =
      delivered (calls (pre.map Prod.snd)) := by
  have hlegal : (bridge T U).Legal (TransportDriver.spawnWith inbound clock)
      ((egressRun egress inputs inbound clock sched).hist.map Prod.snd) _ :=
    Shared.legal_hist (bridge T U) (egressLoop egress inputs) _ _ sched
  rw [h, List.map_append] at hlegal
  obtain ⟨w, -, hlegal⟩ := ((bridge T U).legal_append _ _ _ _).mp hlegal
  have hnone : delivered (calls (e :: post.map Prod.snd)) = [] := delivered_after he hlegal
  rw [Shared.Config.calls, h, List.map_append, calls_append, delivered_append, List.map_cons,
    hnone, List.append_nil]

theorem values_mono (v : Nat → U) {n n' : Nat} (h : n ≤ n') :
    (List.range n).map v <+: (List.range n').map v := by
  obtain ⟨d, rfl⟩ := Nat.exists_eq_add_of_le h
  rw [List.range_add, List.map_append]
  exact List.prefix_append _ _

/-- **One stream for either task.** Of the same values, one in each iteration or in batches, as
many accepted are the same accepted. -/
theorem same_stream {v : Nat → U} {ones : Nat → CuMsg U} {batches : Nat → CuMsg (Batch U)}
    (hones : ∀ k, (ones k).payload = some (v k))
    (hbatches : ∀ n, ∃ l, outboundValues .batchEgressTask batches n = (List.range l).map v)
    (inbound inbound' : Chan T) (clock clock' : Nat) (sched sched' : Schedule T U) :
    let m := egressRun .egressTask ones inbound clock sched
    let m' := egressRun .batchEgressTask batches inbound' clock' sched'
    (delivered m.calls).length = (delivered m'.calls).length →
      delivered m.calls = delivered m'.calls := by
  intro m m' hsame
  have hpre : delivered m.calls <+: outboundValues .egressTask ones (m.stage + 1) :=
    delivered_isPrefix .egressTask ones inbound clock sched
  have hpre' : delivered m'.calls <+: outboundValues .batchEgressTask batches (m'.stage + 1) :=
    delivered_isPrefix .batchEgressTask batches inbound' clock' sched'
  -- Both streams are prefixes of the one list of values.
  obtain ⟨l, hl⟩ := hbatches (m'.stage + 1)
  rw [hl] at hpre'
  rw [outboundValues_ones hones] at hpre
  have hle := hpre.trans (values_mono v (Nat.le_max_left _ l))
  have hle' := hpre'.trans (values_mono v (Nat.le_max_right (m.stage + 1) l))
  exact (List.prefix_of_prefix_length_le hle hle' (Nat.le_of_eq hsame)).eq_of_length hsame

/-- **The outbound stream.** At every moment of every run of either egress task on any inputs:

* the accepted values are a prefix of all values in order,
* of a finished iteration the first values were accepted, and `process` failed exactly when not
  all of them were.

And if `EgressTask` is given the values `v 0`, `v 1`, … one in each iteration, `BatchEgressTask`
the same values in batches, and in both runs the receiver is dropped when the same number of
values has been accepted, then both have the same values accepted. -/
theorem outbound_stream :
    (∀ {B : Type} (egress : Egress U B) (inputs : Nat → CuMsg B) (inbound : Chan T) (clock : Nat)
        (sched : Schedule T U),
      let m := egressRun egress inputs inbound clock sched
      delivered m.calls <+: outboundValues egress inputs (m.stage + 1) ∧
        ∀ i, i < m.stage → ∃ r, m.mem[i]? = some r ∧
          delivered (calls (m.ofStage i)) <+: egress.values (inputs i).payload ∧
          ((∃ e, r = .error e) ↔ (delivered (calls (m.ofStage i))).length <
            (egress.values (inputs i).payload).length)) ∧
    (∀ (v : Nat → U) (ones : Nat → CuMsg U) (batches : Nat → CuMsg (Batch U)),
      (∀ k, (ones k).payload = some (v k)) →
      (∀ n, ∃ l, outboundValues .batchEgressTask batches n = (List.range l).map v) →
      ∀ (inbound inbound' : Chan T) (clock clock' : Nat) (sched sched' : Schedule T U)
        (pre post pre' post' : List (Nat × Event T U)) (k k' : Nat) (e e' : Event T U),
        (egressRun .egressTask ones inbound clock sched).hist = pre ++ (k, e) :: post →
        (egressRun .batchEgressTask batches inbound' clock' sched').hist =
          pre' ++ (k', e') :: post' →
        e.Disconnects → e'.Disconnects →
        (delivered (calls (pre.map Prod.snd))).length =
          (delivered (calls (pre'.map Prod.snd))).length →
        delivered (egressRun .egressTask ones inbound clock sched).calls =
          delivered (egressRun .batchEgressTask batches inbound' clock' sched').calls) := by
  refine ⟨?_, ?_⟩
  · intro B egress inputs inbound clock sched m
    refine ⟨delivered_isPrefix egress inputs inbound clock sched, ?_⟩
    intro i hi
    obtain ⟨r, hr, hsends⟩ := finished_sends egress inputs inbound clock sched i hi
    exact ⟨r, hr, hsends.accepted⟩
  · intro v ones batches hones hbatches inbound inbound' clock clock' sched sched' pre post pre'
      post' k k' e e' hhist hhist' he he' hsame
    rw [← delivered_at_disconnection he hhist, ← delivered_at_disconnection he' hhist'] at hsame
    exact same_stream hones hbatches inbound inbound' clock clock' sched sched' hsame

/-- One value in each iteration against two: both receivers are dropped after the first value. -/
theorem outbound_stream_pairs :
    let ones (k : Nat) : CuMsg UInt8 := .new (some (.ofNat k))
    let batches (k : Nat) : CuMsg (Batch UInt8) :=
      .new (some ⟨[.ofNat (2 * k), .ofNat (2 * k + 1)]⟩)
    let sched : Schedule UInt8 UInt8 := .move :: .env .dropRx :: List.replicate 4 .move
    delivered (egressRun .egressTask ones (Chan.fresh none) 0 sched).calls =
      delivered (egressRun .batchEgressTask batches (Chan.fresh none) 0 sched).calls := by
  intro ones batches sched
  have hbatches (n : Nat) : outboundValues .batchEgressTask batches n =
      (List.range (2 * n)).map UInt8.ofNat := by
    induction n with
    | zero => rfl
    | succ n ih =>
      rw [outboundValues_succ, ih, Nat.mul_succ, List.range_succ, List.range_succ,
        List.map_append, List.map_append, List.append_assoc]
      rfl
  exact outbound_stream.2 UInt8.ofNat ones batches (fun _ => rfl) (fun n => ⟨_, hbatches n⟩) _ _ _ _
    sched sched [(0, .call ⟨.send 0, .ok ()⟩)] _ [(0, .call ⟨.send 0, .ok ()⟩)] _ 0 0
    (.env .dropRx true) (.env .dropRx true) rfl rfl trivial trivial rfl

end Msrs
