import Msrs.Transport.Tasks
import Msrs.Lib.Stages
import Mathlib.Data.List.Basic

/-!
# One drain

A drain while the transport goes on sending: where it is cut when it stops short of its cap
(`Drained.cut`), when it takes a message that is already queued (`Drained.takes`), and what
`pending` tells. `cycle_step` reads the length of the queue in a step of its own, after the
drain. Messages that arrive between the two are counted in `pending`, also when the drain has
just found the queue empty. So a non-zero `pending` means a full batch exactly when no message
arrives there (`pending_means_full_iff`).
-/

namespace Msrs

open Interleave Fifo

variable {T U : Type}

theorem received_map_ok (events : List T) :
    received (events.map fun v => (⟨.tryRecv, .ok v⟩ : IoCall T U)) = events := by
  induction events with
  | nil => rfl
  | cons v events ih => exact congrArg (v :: ·) ih

/-- **A short drain leaves nothing behind.** It ends with a failed attempt, and up to there it
has taken everything that was queued or has been accepted. -/
theorem Drained.cut {n : Nat} {drain rest : List (IoCall T U)} {events : List T}
    {w w' : Bridge T U} {ls : List (Event T U)} (hd : Drained n drain events)
    (hshort : events.length < n) (hcalls : calls ls = drain ++ rest)
    (h : (bridge T U).Legal w ls w') :
    ∃ pre e post, ls = pre ++ .call ⟨.tryRecv, .error e⟩ :: post ∧ calls post = rest ∧
      w.inbound.queue ++ accepted pre = events := by
  rcases hd.shape with ⟨hfull, -⟩ | ⟨-, e, rfl⟩
  · omega
  · rw [List.append_assoc] at hcalls
    obtain ⟨pre, post, rfl, hpre, hpost⟩ := calls_eq_append_cons hcalls
    obtain ⟨v, hv, hfail⟩ := ((bridge T U).legal_append _ _ _ _).mp h
    have hlaw := queue_law hv
    rw [hpre, received_map_ok, queue_of_failed hfail, List.append_nil] at hlaw
    exact ⟨pre, e, post, rfl, hpost, hlaw⟩

/-- **A drain takes from the front.** With `q` messages ahead of it, a queued message is event
`q` of a drain with a cap above `q`, and otherwise moves up by the cap. -/
theorem Drained.takes {n q : Nat} {x : T} {drain rest : List (IoCall T U)} {events : List T}
    {w w' : Bridge T U} {ls : List (Event T U)} (hd : Drained n drain events)
    (hcalls : calls ls = drain ++ rest) (hrest : Msrs.received rest = [])
    (h : (bridge T U).Legal w ls w') (hx : w.inbound.queue[q]? = some x) :
    (q < n → events[q]? = some x) ∧ (n ≤ q → w'.inbound.queue[q - n]? = some x) := by
  have hq : q < w.inbound.queue.length := (List.getElem?_eq_some_iff.mp hx).1
  by_cases hshort : events.length < n
  · obtain ⟨pre, e, post, -, -, rfl⟩ := hd.cut hshort hcalls h
    rw [List.length_append] at hshort
    refine ⟨fun _ => ?_, fun hle => by omega⟩
    rwa [List.getElem?_append_left hq]
  · have hfull : events.length = n := Nat.le_antisymm hd.length_le (Nat.le_of_not_lt hshort)
    have hlaw := queue_law h
    rw [hcalls, received_append, hd.received, hrest, List.append_nil] at hlaw
    have hget : (events ++ w'.inbound.queue)[q]? = some x := by
      rwa [← hlaw, List.getElem?_append_left hq]
    refine ⟨?_, ?_⟩
    · intro hlt
      rwa [List.getElem?_append_left (by omega)] at hget
    · intro hle
      rwa [List.getElem?_append_right (by omega), hfull] at hget

/-! ## The length read -/

/-- A message is accepted after a receive attempt has failed and before the length is read. -/
def LateArrival (ls : List (Event T U)) : Prop :=
  ∃ (pre : List (Event T U)) (e : TryRecvError) (mid : List (Event T U)) (n : Nat)
    (post : List (Event T U)),
    ls = pre ++ .call ⟨.tryRecv, .error e⟩ :: (mid ++ .call ⟨.len, n⟩ :: post) ∧
      accepted mid ≠ []

/-- What is queued after a failed receive attempt is what has been accepted since. -/
theorem len_after_failed {w w' : Bridge T U} {e : TryRecvError} {mid post : List (Event T U)}
    {n : Nat} (hmid : calls mid = [])
    (h : (bridge T U).Legal w (.call ⟨.tryRecv, .error e⟩ :: (mid ++ .call ⟨.len, n⟩ :: post)) w') :
    n = (accepted mid).length := by
  have hempty : w.inbound.queue = [] := queue_of_failed h
  have hsplit : (bridge T U).Legal w
      ((.call ⟨.tryRecv, .error e⟩ :: mid) ++ .call ⟨.len, n⟩ :: post) w' := h
  obtain ⟨v, hv, hlen, -⟩ := ((bridge T U).legal_append _ _ _ _).mp hsplit
  have hnone : received (calls (.call ⟨.tryRecv, .error e⟩ :: mid)) = ([] : List T) := by
    rw [calls_call, hmid]
    rfl
  have hqueue : accepted mid = v.inbound.queue := by
    have hlaw := queue_law hv
    rwa [hempty, hnone] at hlaw
  rw [hqueue]
  exact hlen.symm

theorem Drained.len_notMem {n : Nat} {cs : List (IoCall T U)} {events : List T}
    (h : Drained n cs events) (pending : Nat) : (⟨.len, pending⟩ : IoCall T U) ∉ cs := by
  rcases h.shape with ⟨-, rfl⟩ | ⟨-, e, rfl⟩ <;> simp

/-- **What `pending` tells.** In every run of `cycle_step`, from any queue and with any actions
of the transport between its receive attempts and the length read: a non-zero `pending` comes
with a full batch exactly if no message arrives between a failed receive and the length read. -/
theorem pending_means_full_iff {maxBatch nowNs : Nat} {w w' : Bridge T U}
    {ls : List (Event T U)} {c : Cycle T}
    (h : Shared.Ran (bridge T U) (cycleStep maxBatch nowNs) w ls w' c) :
    (0 < c.pending → c.events.length = maxBatch) ↔ ¬ LateArrival ls := by
  obtain ⟨drain, hd, hcalls, -⟩ := yields_cycleStep h.yields
  constructor
  · rintro hfull ⟨pre, e, mid, n, post, rfl, hlate⟩
    obtain ⟨v, -, hv⟩ := ((bridge T U).legal_append _ _ _ _).mp h.legal
    -- The length is read once, after the drain, and the drain ends with a failed attempt.
    have hcut : drain ++ ⟨.len, c.pending⟩ :: [] =
        (calls pre ++ ⟨.tryRecv, .error e⟩ :: calls mid) ++ ⟨.len, n⟩ :: calls post := by
      rw [← hcalls]
      simp
    obtain ⟨hdrain, hpending, -⟩ := (List.append_cons_inj_of_notMem (hd.len_notMem n)
      List.not_mem_nil).mp hcut
    obtain rfl : c.pending = n := by simpa using hpending
    rcases hd.shape with ⟨-, hall⟩ | ⟨hshort, e', hstop⟩
    · have hmem : (⟨.tryRecv, .error e⟩ : IoCall T U) ∈ drain := by rw [hdrain]; simp
      rw [hall] at hmem
      simp at hmem
    · rw [hstop] at hdrain
      obtain ⟨-, -, hmid⟩ := (List.append_cons_inj_of_notMem (by simp) List.not_mem_nil).mp hdrain
      have hcount := len_after_failed hmid.symm hv
      have hpos := List.length_pos_of_ne_nil hlate
      have heq := hfull (by omega)
      omega
  · intro hnot hpos
    by_contra hne
    have hshort : c.events.length < maxBatch := Nat.lt_of_le_of_ne hd.length_le hne
    obtain ⟨pre, e, rest, rfl, hrest, -⟩ := hd.cut hshort hcalls h.legal
    obtain ⟨mid, post, rfl, hmid, -⟩ :=
      calls_eq_append_cons (show _ = [] ++ _ :: _ from hrest)
    obtain ⟨v, -, hv⟩ := ((bridge T U).legal_append _ _ _ _).mp h.legal
    have hcount := len_after_failed hmid hv
    refine hnot ⟨pre, e, mid, c.pending, post, rfl, ?_⟩
    exact List.ne_nil_of_length_pos (hcount ▸ hpos)

/-- One queued message more than the cap: it is pending, and the batch is full. -/
theorem pending_means_full_burst :
    ¬ LateArrival [Label.env (.send 7) true, .env (.send 8) true, .call ⟨.tryRecv, .ok 7⟩,
      (.call ⟨.len, (1 : Nat)⟩ : Event UInt8 UInt8)] := by
  have hran : Shared.Ran (bridge UInt8 UInt8) (cycleStep 1 0) (TransportDriver.spawn 0)
      [.env (.send 7) true, .env (.send 8) true, .call ⟨.tryRecv, .ok 7⟩,
        .call ⟨.len, (1 : Nat)⟩] _ { nowNs := 0, events := [7], pending := 1 } :=
    ⟨⟨rfl, rfl, rfl, rfl, rfl⟩, _, rfl, _, rfl, rfl⟩
  exact (pending_means_full_iff hran).mp fun _ => rfl

/-- A message that arrives when the drain of an empty queue is over: it is pending, and the
batch has no events at all. -/
theorem pending_with_empty_batch :
    ∃ w', Shared.Ran (bridge UInt8 UInt8) (cycleStep 2 0) (TransportDriver.spawn 0)
        [.call ⟨.tryRecv, .error .empty⟩, .env (.send 7) true, .call ⟨.len, (1 : Nat)⟩] w'
        { nowNs := 0, events := [], pending := 1 } ∧
      ¬ ∀ (maxBatch nowNs : Nat) (w w' : Bridge UInt8 UInt8) (ls : List (Event UInt8 UInt8))
        (c : Cycle UInt8), 0 < maxBatch →
          Shared.Ran (bridge UInt8 UInt8) (cycleStep maxBatch nowNs) w ls w' c →
          0 < c.pending → c.events.length = maxBatch := by
  have hran : Shared.Ran (bridge UInt8 UInt8) (cycleStep 2 0) (TransportDriver.spawn 0)
      [.call ⟨.tryRecv, .error .empty⟩, .env (.send 7) true, .call ⟨.len, (1 : Nat)⟩] _
      { nowNs := 0, events := [], pending := 1 } :=
    ⟨⟨rfl, rfl, rfl, rfl⟩, _, rfl, _, rfl, rfl⟩
  refine ⟨_, hran, ?_⟩
  intro hclaim
  have hfull := hclaim 2 0 _ _ _ _ (by decide) hran (by decide)
  cases hfull

end Msrs
