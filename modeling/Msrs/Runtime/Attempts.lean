import Msrs.Runtime.Messages
import Msrs.Runtime.Drains

/-!
# What an iteration heard

The iterations of the message pipeline one by one: each makes one receive attempt, which
succeeds exactly if a message is queued at that moment (`message_attempt`), and sends what its
machine emitted and nothing else (`message_sends`).
-/

namespace Msrs

open Interleave Fifo

variable {T U σ : Type}

/-- Iteration `i` received a message. -/
def heard (hist : List (Nat × Event T U)) (i : Nat) : Bool :=
  !(received (calls (Shared.labelsOf hist (3 * i)))).isEmpty

/-- The messages in the ingress slots of a log. -/
def logged {B : Type} (log : List (CopperList (Slots T B))) : List T :=
  log.flatMap fun cl => cl.msgs.1.payload.toList

theorem length_logged {B : Type} (log : List (CopperList (Slots T B))) :
    (logged log).length = log.countP fun cl => cl.msgs.1.payload.isSome := by
  induction log with
  | nil => rfl
  | cons cl log ih =>
    rw [logged, List.flatMap_cons, List.length_append, ← logged, ih, List.countP_cons]
    cases cl.msgs.1.payload <;> simp [Nat.add_comm]

/-- Counting the elements of a list is counting their places. -/
theorem countP_range {α : Type} {q : α → Bool} {p : Nat → Bool} {l : List α} {n : Nat}
    (hlength : l.length = n) (h : ∀ i a, l[i]? = some a → p i = q a) :
    l.countP q = (List.range n).countP p := by
  have hmap : l.map q = (List.range n).map p := by
    apply List.ext_getElem?
    intro i
    rw [List.getElem?_map, List.getElem?_map]
    by_cases hi : i < n
    · rw [List.getElem?_range hi, List.getElem?_eq_getElem (by omega)]
      exact congrArg some (h i _ (List.getElem?_eq_getElem (by omega))).symm
    · rw [List.getElem?_eq_none (by omega), List.getElem?_eq_none (by simpa using hi)]
      rfl
  have hcount := congrArg (List.countP id) hmap
  rwa [List.countP_map, List.countP_map] at hcount

variable (M : FsmSpec σ T U) (pick : Nat → Nat) (ring : Nat → Slots T U) (id : UInt64)
  (capacity : Capacity) (clock : Nat) (sched : Schedule T U)

theorem length_messageRun {n : Nat} :
    let m := messageRun M pick ring id capacity clock sched
    m.stage = 3 * n → m.mem.log.length = n := by
  intro m hstage
  have hlog : Dag.Logged (messages M).dag id m.stage m.mem :=
    Dag.logged_run (messages M).dag pick (FsmTask.default M) ring id _ sched
  have hlength : m.mem.log.length = m.stage / 3 := hlog.length_log
  omega

/-- The calls that filled the ingress slot of iteration `i`. -/
theorem message_ingress {n i : Nat} {cl : CopperList (Slots T U)} :
    let m := messageRun M pick ring id capacity clock sched
    m.stage = 3 * n → m.mem.log[i]? = some cl →
      ∃ (res : Except TryRecvError T) (t : Nat),
        calls (m.ofStage (3 * i)) = [⟨.tryRecv, res⟩, ⟨.now, t⟩] ∧
        cl.msgs.1.payload = res.toOption := by
  intro m hstage hcl
  obtain ⟨f, hstages, hcalls⟩ : ∃ f, Pipeline.Stages (messages M) (messageContract M)
      m.stage m.mem f ∧ ∀ i, i ≠ m.stage → calls (m.ofStage i) = f i :=
    Pipeline.stages (messages_meets M) pick _ ring id _ sched
  have hlength : m.mem.log.length = n :=
    length_messageRun M pick ring id capacity clock sched hstage
  have hlt := (List.getElem?_eq_some_iff.mp hcl).1
  have hfilled : (Pipeline.filled m.stage m.mem)[i]? = some cl.msgs.1 := by
    have hmod : m.stage % 3 = 0 := by omega
    rw [Pipeline.filled, if_pos hmod, List.append_nil, List.getElem?_map, hcl]
    rfl
  obtain ⟨a₀, r, hsrc⟩ := hstages.source i _ hfilled
  obtain ⟨res, t, hf, -, hslot⟩ := IngressTask.yields_process hsrc
  refine ⟨res, t, (hcalls _ (by omega)).trans hf, ?_⟩
  rw [hslot]

theorem heard_eq {n i : Nat} {cl : CopperList (Slots T U)} :
    let m := messageRun M pick ring id capacity clock sched
    m.stage = 3 * n → m.mem.log[i]? = some cl →
      heard m.hist i = cl.msgs.1.payload.isSome := by
  intro m hstage hcl
  obtain ⟨res, t, hcalls, hpayload⟩ :=
    message_ingress M pick ring id capacity clock sched hstage hcl
  change calls (Shared.labelsOf m.hist (3 * i)) = _ at hcalls
  rw [heard, hcalls, hpayload]
  cases res <;> rfl

theorem length_logged_heard {n : Nat} :
    let m := messageRun M pick ring id capacity clock sched
    m.stage = 3 * n → (logged m.mem.log).length = (List.range n).countP (heard m.hist) := by
  intro m hstage
  have hlength : m.mem.log.length = n :=
    length_messageRun M pick ring id capacity clock sched hstage
  rw [length_logged]
  exact countP_range hlength fun i cl hcl =>
    heard_eq M pick ring id capacity clock sched hstage hcl

theorem logged_accepted {n : Nat} :
    let m := messageRun M pick ring id capacity clock sched
    m.stage = 3 * n → logged m.mem.log <+: accepted m.events := by
  intro m hstage
  have href : Pipeline.Refines (messageContract M) (FsmTask.default M) m :=
    message_refines M pick ring id capacity clock sched
  have hhanded : Pipeline.handed m.stage m.mem = m.mem.log.map fun cl => cl.msgs.1 := by
    have hmod : ¬ m.stage % 3 = 2 := by omega
    rw [Pipeline.handed, if_neg hmod, List.append_nil]
  rw [href.accepted, hhanded, List.flatMap_map, List.append_assoc]
  exact List.prefix_append _ _

/-- **One attempt.** Each finished iteration has made one receive attempt, and heard a message
exactly if one was queued at that moment. -/
theorem message_attempt {n i : Nat} :
    let m := messageRun M pick ring id capacity clock sched
    m.stage = 3 * n → i < n →
      ∃ pre r post, m.hist = pre ++ (3 * i, Event.attempt r) :: post ∧
        (∀ r', (3 * i, Event.attempt r') ∉ pre ++ post) ∧
        ∃ k, (messageRun M pick ring id capacity clock (sched.take k)).hist = pre ∧
          (heard m.hist i = true ↔
            (messageRun M pick ring id capacity clock (sched.take k)).world.inbound.queue ≠
              []) := by
  intro m hstage hi
  have hlength : m.mem.log.length = n :=
    length_messageRun M pick ring id capacity clock sched hstage
  obtain ⟨cl, hcl⟩ : ∃ cl, m.mem.log[i]? = some cl :=
    ⟨_, List.getElem?_eq_getElem (by omega)⟩
  obtain ⟨res, t, hcalls, -⟩ := message_ingress M pick ring id capacity clock sched hstage hcl
  change calls (Shared.labelsOf m.hist (3 * i)) = [] ++ _ :: _ at hcalls
  obtain ⟨pre, post, hcut, hpre, hpost⟩ := cut_of_calls hcalls
  obtain ⟨k, hk, -, hres, -⟩ := Dag.exists_moment (messages M).dag pick _ _ sched hcut
  refine ⟨pre, res, post, hcut, ?_, k, hk, ?_⟩
  · intro r' hr'
    have hother : (⟨.tryRecv, r'⟩ : IoCall T U) ∈
        calls (Shared.labelsOf (pre ++ post) (3 * i)) := mem_calls.mpr (Shared.mem_labelsOf hr')
    rw [Shared.labelsOf_append, calls_append, hpre, hpost] at hother
    simp at hother
  -- The world at that moment is the one the attempt was made in.
  · have hheard : heard m.hist i = res.isOk := by
      rw [heard, hcalls]
      cases res <;> rfl
    change (messageRun M pick ring id capacity clock (sched.take k)).world.inbound.tryRecv.1 = res
      at hres
    rw [hheard, ← hres]
    exact Chan.tryRecv_isOk_iff _

/-! ## What is sent -/

/-- Of the calls `f k` of each finished stage `k`, only those of the egress task send. -/
structure SendsLogged (rt : Runtime (FsmTask σ) (Slots T U)) (f : Nat → List (IoCall T U)) :
    Prop where
  egress : ∀ i cl, rt.log[i]? = some cl → sent (f (3 * i + 2)) = cl.msgs.2.payload.toList
  quiet : ∀ i, i % 3 ≠ 2 → sent (f i) = []

variable {M} {pick} {k : Nat} {rt rt' : Runtime (FsmTask σ) (Slots T U)}
  {cs ds : List (IoCall T U)}

theorem SendsLogged.idle {f : Nat → List (IoCall T U)} (h : SendsLogged rt f)
    (hk : k % 3 ≠ 2) (hlog : rt'.log = rt.log) (hsent : sent ds = []) :
    SendsLogged rt' (Function.update f k ds) := by
  refine ⟨?_, ?_⟩
  · intro i cl hcl
    rw [hlog] at hcl
    rw [Function.update_of_ne (by omega)]
    exact h.egress i cl hcl
  · intro i hi
    by_cases heq : i = k
    · rw [heq, Function.update_self]
      exact hsent
    · rw [Function.update_of_ne heq]
      exact h.quiet i hi

theorem SendsLogged.step {f : Nat → List (IoCall T U)} (h : SendsLogged rt f)
    (hlength : rt.log.length = k / 3) (hstage : ((messages M).dag.stage pick k rt).Yields ds rt') :
    SendsLogged rt' (Function.update f k ds) := by
  rcases Pipeline.yields_stage hstage with ⟨h0, a, r, hsrc, rfl⟩ | ⟨h1, s, b, r, htr, rfl⟩ |
    ⟨h2, r, hsink, rfl⟩
  · exact h.idle (by omega) rfl ((messages_meets M).source hsrc).2.2
  · exact h.idle (by omega) rfl (idle_of_clock (FsmTask.within_process M _ _ _) htr).2
  · have hsent : sent ds = rt.msgs.2.payload.toList := (EgressTask.yields_process hsink).sent_toList
    refine ⟨?_, ?_⟩
    · intro i cl hcl
      change (rt.log ++ [_])[i]? = some cl at hcl
      rcases Mealy.getElem?_snoc.mp hcl with hcl | ⟨hlast, rfl⟩
      · have hlt := (List.getElem?_eq_some_iff.mp hcl).1
        rw [Function.update_of_ne (by omega)]
        exact h.egress i cl hcl
      · have hk : 3 * i + 2 = k := by omega
        rw [hk, Function.update_self]
        exact hsent
    · intro i hi
      rw [Function.update_of_ne (by omega)]
      exact h.quiet i hi

variable (M pick)

theorem sendsLogged_run :
    let m := messageRun M pick ring id capacity clock sched
    ∃ f, SendsLogged m.mem f ∧ ∀ i, i ≠ m.stage → calls (m.ofStage i) = f i := by
  intro m
  obtain ⟨f, ⟨-, hsends⟩, hf⟩ := Shared.run_rule_stages (bridge T U)
    ((messages M).dag.stage pick)
    (J := fun k rt f => Dag.Logged (messages M).dag id k rt ∧ SendsLogged rt f)
    (s := .start (FsmTask.default M) ring id)
    (w := TransportDriver.spawnWith (Chan.fresh capacity) clock)
    ⟨Dag.logged_run (messages M).dag pick (FsmTask.default M) ring id
      (TransportDriver.spawnWith (Chan.fresh capacity) clock) [],
      fun i cl hcl => by simp [Runtime.start] at hcl, fun _ _ => rfl⟩
    (fun k rt f ds rt' h hyields => ⟨h.1.step hyields, h.2.step h.1.length_log hyields⟩) sched
  exact ⟨f, hsends, hf⟩

/-- **What a run sends.** Between two iterations: the values sent are those of the logged output
slots, each in its own iteration; and while the transport holds its receiver, they have been
delivered and no task has returned an error. -/
theorem message_sends (hM : M.EmitsAtMostOnce) {n : Nat} :
    let m := messageRun M pick ring id capacity clock sched
    m.stage = 3 * n →
      sent m.calls = m.mem.log.flatMap (fun cl => cl.msgs.2.payload.toList) ∧
      (m.world.outbound.rx = true →
        delivered m.calls = sent m.calls ∧ ∀ r ∈ m.mem.results, r = .ok ()) ∧
      ∀ i cl, m.mem.log[i]? = some cl →
        sent (calls (m.ofStage (3 * i))) = [] ∧ sent (calls (m.ofStage (3 * i + 1))) = [] ∧
        sent (calls (m.ofStage (3 * i + 2))) = cl.msgs.2.payload.toList := by
  intro m hstage
  have hlegal : (bridge T U).Legal (TransportDriver.spawnWith (Chan.fresh capacity) clock)
      m.events m.world := Dag.legal_run (messages M).dag pick _ _ sched
  obtain ⟨cs, ds, hcalls, hanswered, hquiet⟩ :=
    answered_run M pick ring id capacity clock sched hM hstage
  change m.calls = cs ++ ds at hcalls
  have hsent : sent m.calls = sent cs := by
    rw [hcalls, sent_append, hquiet, List.append_nil]
  refine ⟨hsent.trans hanswered.sent, ?_, ?_⟩
  · intro hrx
    have hall : delivered m.calls = sent m.calls := delivered_eq_sent hlegal hrx
    refine ⟨hall, hanswered.ok ?_⟩
    rw [hcalls] at hall
    exact (delivered_eq_sent_append.mp hall).1
  · intro i cl hcl
    obtain ⟨f, hsends, hf⟩ := sendsLogged_run M pick ring id capacity clock sched
    change ∀ i, i ≠ m.stage → calls (m.ofStage i) = f i at hf
    have hlt := (List.getElem?_eq_some_iff.mp hcl).1
    have hlength : m.mem.log.length = n :=
      length_messageRun M pick ring id capacity clock sched hstage
    have hi : calls (m.ofStage (3 * i)) = f (3 * i) := hf _ (by omega)
    have hi1 : calls (m.ofStage (3 * i + 1)) = f (3 * i + 1) := hf _ (by omega)
    have hi2 : calls (m.ofStage (3 * i + 2)) = f (3 * i + 2) := hf _ (by omega)
    rw [hi, hi1, hi2]
    exact ⟨hsends.quiet _ (by omega), hsends.quiet _ (by omega), hsends.egress i cl hcl⟩

end Msrs
