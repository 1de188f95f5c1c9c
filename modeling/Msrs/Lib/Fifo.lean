import Mathlib.Tactic.SplitIfs

/-!
# First-in first-out channels

A channel with one queue, an optional capacity and two ends that may hang up. Each operation
is one atomic step (a linearizable queue): a channel value with a result. A channel that holds
more than its capacity cannot be built.
-/

namespace Fifo

/-- `none` is an unbounded channel, `some c` holds at most `c` messages. -/
abbrev Capacity : Type := Option { c : Nat // 0 < c }

/-- Why a non-blocking receive returned nothing. -/
inductive TryRecvError where
  | empty
  | disconnected
  deriving DecidableEq

/-- Why a non-blocking send was refused. -/
inductive TrySendError where
  | full
  | disconnected
  deriving DecidableEq

/-- Why a receiver that waited returned nothing. -/
inductive RecvTimeoutError where
  | timeout
  | disconnected
  deriving DecidableEq

/-- A channel: the queued messages, oldest first, and which ends are still there. -/
structure Chan (α : Type) where
  queue : List α
  cap : Capacity
  /-- Some sender is left. -/
  tx : Bool
  /-- Some receiver is left. -/
  rx : Bool
  fits : ∀ c ∈ cap, queue.length ≤ c.val

namespace Chan

variable {α : Type}

/-- A channel nobody has used yet. -/
def fresh (cap : Capacity) : Chan α :=
  { queue := [], cap := cap, tx := true, rx := true, fits := fun _ _ => Nat.zero_le _ }

/-- A bounded channel is full when it holds its capacity. -/
def Full (ch : Chan α) : Prop := ∃ c ∈ ch.cap, c.val ≤ ch.queue.length

instance (ch : Chan α) : Decidable ch.Full :=
  match h : ch.cap with
  | none => isFalse (by simp [Full, h])
  | some c => decidable_of_iff (c.val ≤ ch.queue.length) (by simp [Full, h])

theorem not_full_of_nil {ch : Chan α} (h : ch.queue = []) : ¬ ch.Full := by
  rintro ⟨c, -, hle⟩
  rw [h] at hle
  exact absurd c.property (Nat.not_lt.mpr hle)

/-- Append a message to a channel with room. -/
def push (ch : Chan α) (a : α) (h : ¬ ch.Full) : Chan α :=
  { ch with
    queue := ch.queue ++ [a]
    fits := fun c hc => by
      have : ¬ c.val ≤ ch.queue.length := fun hle => h ⟨c, hc, hle⟩
      simp only [List.length_append, List.length_cons, List.length_nil]
      omega }

/-- Send without blocking. -/
def trySend (ch : Chan α) (a : α) : Except TrySendError Unit × Chan α :=
  if ch.rx then
    if h : ch.Full then (.error .full, ch) else (.ok (), ch.push a h)
  else (.error .disconnected, ch)

/-- Receive without blocking. -/
def tryRecv (ch : Chan α) : Except TryRecvError α × Chan α :=
  match h : ch.queue with
  | a :: q => (.ok a, { ch with
      queue := q
      fits := fun c hc => by
        have hle := ch.fits c hc
        rw [h, List.length_cons] at hle
        omega })
  | [] => (.error (if ch.tx then .empty else .disconnected), ch)

/-- The sending side hangs up. -/
def dropTx (ch : Chan α) : Chan α := { ch with tx := false }

/-- The receiving side hangs up. -/
def dropRx (ch : Chan α) : Chan α := { ch with rx := false }

/-! ## What the operations do to the queue -/

@[simp] theorem cap_fresh (cap : Capacity) : (fresh cap : Chan α).cap = cap := rfl
@[simp] theorem queue_dropTx (ch : Chan α) : ch.dropTx.queue = ch.queue := rfl
@[simp] theorem queue_dropRx (ch : Chan α) : ch.dropRx.queue = ch.queue := rfl
@[simp] theorem rx_dropTx (ch : Chan α) : ch.dropTx.rx = ch.rx := rfl
@[simp] theorem rx_dropRx (ch : Chan α) : ch.dropRx.rx = false := rfl
@[simp] theorem tx_dropTx (ch : Chan α) : ch.dropTx.tx = false := rfl
@[simp] theorem tx_dropRx (ch : Chan α) : ch.dropRx.tx = ch.tx := rfl

@[simp] theorem rx_trySend (ch : Chan α) (a : α) : (ch.trySend a).2.rx = ch.rx := by
  unfold trySend
  split_ifs <;> rfl

@[simp] theorem tx_trySend (ch : Chan α) (a : α) : (ch.trySend a).2.tx = ch.tx := by
  unfold trySend
  split_ifs <;> rfl

@[simp] theorem cap_trySend (ch : Chan α) (a : α) : (ch.trySend a).2.cap = ch.cap := by
  unfold trySend
  split_ifs <;> rfl

@[simp] theorem rx_tryRecv (ch : Chan α) : ch.tryRecv.2.rx = ch.rx := by
  unfold tryRecv
  split <;> rfl

@[simp] theorem tx_tryRecv (ch : Chan α) : ch.tryRecv.2.tx = ch.tx := by
  unfold tryRecv
  split <;> rfl

@[simp] theorem cap_tryRecv (ch : Chan α) : ch.tryRecv.2.cap = ch.cap := by
  unfold tryRecv
  split <;> rfl

/-- A send appends its message exactly when it is accepted. -/
theorem queue_trySend (ch : Chan α) (a : α) :
    (ch.trySend a).2.queue = ch.queue ++ if (ch.trySend a).1.isOk then [a] else [] := by
  unfold trySend
  split_ifs <;> simp_all [push, Except.isOk, Except.toBool]

theorem trySend_ok {ch : Chan α} (hcap : ch.cap = none) (hrx : ch.rx = true) (a : α) :
    (ch.trySend a).1 = .ok () := by
  have hroom : ¬ ch.Full := by simp [Full, hcap]
  simp [trySend, hrx, hroom]

theorem trySend_disconnected {ch : Chan α} (hrx : ch.rx = false) (a : α) :
    (ch.trySend a).1 = .error .disconnected := by
  simp [trySend, hrx]

theorem trySend_isOk_iff {ch : Chan α} {c : { c : Nat // 0 < c }} (hcap : ch.cap = some c)
    (hrx : ch.rx = true) (a : α) : (ch.trySend a).1.isOk = true ↔ ch.queue.length < c.val := by
  have hfull : ch.Full ↔ c.val ≤ ch.queue.length := by simp [Full, hcap]
  by_cases h : ch.Full
  · have hle := hfull.mp h
    simp [trySend, hrx, h, Except.isOk, Except.toBool, hle]
  · have hlt : ch.queue.length < c.val := Nat.lt_of_not_le fun hle => h (hfull.mpr hle)
    simp [trySend, hrx, h, Except.isOk, Except.toBool, hlt]

theorem tryRecv_of_nil {ch : Chan α} (h : ch.queue = []) :
    ch.tryRecv = (.error (if ch.tx then .empty else .disconnected), ch) := by
  unfold tryRecv
  split
  · rename_i a q hq
    simp [h] at hq
  · rfl

theorem tryRecv_of_cons {ch : Chan α} {a : α} {q : List α} (h : ch.queue = a :: q) :
    ch.tryRecv.1 = .ok a ∧ ch.tryRecv.2.queue = q := by
  unfold tryRecv
  split
  · rename_i b q' hq
    rw [h] at hq
    obtain ⟨rfl, rfl⟩ := List.cons.inj hq
    exact ⟨rfl, rfl⟩
  · rename_i hq
    simp [h] at hq

theorem queue_tryRecv (ch : Chan α) :
    ch.queue = ch.tryRecv.1.toOption.toList ++ ch.tryRecv.2.queue := by
  cases hq : ch.queue with
  | nil => simp [tryRecv_of_nil hq, hq, Except.toOption]
  | cons a q =>
    obtain ⟨hr, hq'⟩ := tryRecv_of_cons hq
    simp [hr, hq', Except.toOption]

theorem tryRecv_error {ch : Chan α} {e : TryRecvError} (h : ch.tryRecv.1 = .error e) :
    ch.queue = [] ∧ ch.tryRecv.2 = ch ∧ e = if ch.tx then .empty else .disconnected := by
  cases hq : ch.queue with
  | nil =>
    rw [tryRecv_of_nil hq] at h ⊢
    exact ⟨rfl, rfl, (Except.error.inj h).symm⟩
  | cons a q =>
    rw [(tryRecv_of_cons hq).1] at h
    exact absurd h (by simp)

theorem tryRecv_isOk_iff (ch : Chan α) : ch.tryRecv.1.isOk = true ↔ ch.queue ≠ [] := by
  cases hq : ch.queue with
  | nil => simp [tryRecv_of_nil hq, Except.isOk, Except.toBool]
  | cons a q => simp [(tryRecv_of_cons hq).1, Except.isOk, Except.toBool]

/-- Wait for a message: the oldest one, or why there will be none. `none` while the receiver
waits; `giveUp` says whether it has waited long enough. -/
def await (ch : Chan α) (giveUp : Bool) : Option (Except RecvTimeoutError α) :=
  match ch.tryRecv.1 with
  | .ok a => some (.ok a)
  | .error .empty => if giveUp then some (.error .timeout) else none
  | .error .disconnected => some (.error .disconnected)

theorem tryRecv_of_await {ch : Chan α} {giveUp : Bool} {a : α}
    (h : ch.await giveUp = some (.ok a)) : ch.tryRecv.1 = .ok a := by
  unfold await at h
  cases hr : ch.tryRecv.1 with
  | ok b =>
    rw [hr] at h
    exact congrArg _ (Except.ok.inj (Option.some.inj h))
  | error e =>
    rw [hr] at h
    cases e <;> cases giveUp <;> simp at h

theorem queue_of_await {ch : Chan α} {giveUp : Bool} {e : RecvTimeoutError}
    (h : ch.await giveUp = some (.error e)) : ch.queue = [] := by
  unfold await at h
  cases hr : ch.tryRecv.1 with
  | ok b =>
    rw [hr] at h
    simp at h
  | error e' => exact (tryRecv_error hr).1

/-- A receiver is told of the end only when the senders are gone, and times out only if it gives
up. -/
theorem await_error {ch : Chan α} {giveUp : Bool} {e : RecvTimeoutError}
    (h : ch.await giveUp = some (.error e)) :
    (e = .disconnected → ch.tx = false) ∧ (e = .timeout → giveUp = true) := by
  unfold await at h
  cases hr : ch.tryRecv.1 with
  | ok b =>
    rw [hr] at h
    simp at h
  | error e' =>
    obtain ⟨-, -, rfl⟩ := tryRecv_error hr
    rw [hr] at h
    cases htx : ch.tx with
    | false =>
      obtain rfl : RecvTimeoutError.disconnected = e := by simpa [htx] using h
      simp
    | true =>
      obtain ⟨rfl, rfl⟩ : giveUp = true ∧ RecvTimeoutError.timeout = e := by simpa [htx] using h
      simp

theorem await_isSome {ch : Chan α} (htx : ch.tx = false) (giveUp : Bool) :
    (ch.await giveUp).isSome = true := by
  unfold await
  cases hr : ch.tryRecv.1 with
  | ok b => rfl
  | error e =>
    obtain ⟨-, -, rfl⟩ := tryRecv_error hr
    rw [htx]
    rfl

theorem await_isSome_of_ne_nil {ch : Chan α} (h : ch.queue ≠ []) (giveUp : Bool) :
    (ch.await giveUp).isSome = true := by
  unfold await
  cases hr : ch.tryRecv.1 with
  | ok b => rfl
  | error e => exact absurd (tryRecv_error hr).1 h

theorem room_tryRecv {ch : Chan α} {c : { c : Nat // 0 < c }} (hcap : ch.cap = some c) :
    ch.tryRecv.2.queue.length < c.val := by
  have hfits := ch.fits c hcap
  cases hq : ch.queue with
  | nil =>
    rw [tryRecv_of_nil hq]
    simpa [hq] using c.property
  | cons a q =>
    rw [hq, List.length_cons] at hfits
    rw [(tryRecv_of_cons hq).2]
    omega

end Chan

end Fifo
