import AScript.Lib.Notify

universe u v

namespace AScript.Stdlib

open AScript.Lib

variable {τ : Type u} {α : Type v}

structure ChannelQueue (α : Type v) where
  queue : List α
  capacity : Nat
  closed : Bool

/-- A parked receiver is its task, a parked sender its task with the value it holds. -/
structure Channel (τ : Type u) (α : Type v) where
  queue : ChannelQueue α
  notEmpty : Notify τ
  notFull : Notify (τ × α)

/-- What a receiver finds. -/
inductive Received (α : Type v)
  | value (v : α)
  | closed

/-- What it then returns. -/
def Received.answer (nil : α) : Received α → α
  | .value v => v
  | .closed => nil

namespace ChannelQueue

def isFull (q : ChannelQueue α) : Bool := 0 < q.capacity && q.capacity ≤ q.queue.length

end ChannelQueue

namespace Channel

def new (capacity : Nat) : Channel τ α := ⟨⟨[], capacity, false⟩, .new, .new⟩

def sendAttempt (v : α) : ChannelQueue α × Notify τ →
    Option (Except String Unit × ChannelQueue α × Notify τ)
  | (q, notEmpty) =>
    if q.closed then some (.error "sync.send: channel is closed", q, notEmpty)
    else if q.isFull then none
    else some (.ok (), { q with queue := q.queue ++ [v] }, notEmpty.notifyOne)

def sendRecheck : ChannelQueue α × Notify τ → Bool
  | (q, _) => q.closed || !q.isFull

def send (ch : Channel τ α) (t : τ) (v : α) : Option (Poll (Except String Unit) × Channel τ α) :=
  (waitLoop (sendAttempt v) sendRecheck (t, v) 2 (ch.queue, ch.notEmpty) ch.notFull).map
    fun (p, (queue, notEmpty), notFull) => (p, ⟨queue, notEmpty, notFull⟩)

def recvAttempt : ChannelQueue α × Notify (τ × α) →
    Option (Received α × ChannelQueue α × Notify (τ × α))
  | (q, notFull) =>
    match q.queue with
    | v :: rest => some (.value v, { q with queue := rest }, notFull.notifyOne)
    | [] => if q.closed then some (.closed, q, notFull) else none

def recvRecheck : ChannelQueue α × Notify (τ × α) → Bool
  | (q, _) => !q.queue.isEmpty || q.closed

def recv (ch : Channel τ α) (t : τ) : Option (Poll (Received α) × Channel τ α) :=
  (waitLoop recvAttempt recvRecheck t 2 (ch.queue, ch.notFull) ch.notEmpty).map
    fun (p, (queue, notFull), notEmpty) => (p, ⟨queue, notEmpty, notFull⟩)

/-- The value if there is one; what is returned without one is nil and `false`. -/
def tryRecv (ch : Channel τ α) : Option α × Channel τ α :=
  match ch.queue.queue with
  | v :: rest =>
    (some v, { ch with queue := { ch.queue with queue := rest }, notFull := ch.notFull.notifyOne })
  | [] => (none, ch)

def close (ch : Channel τ α) : Channel τ α :=
  ⟨{ ch.queue with closed := true }, ch.notEmpty.notifyWaiters, ch.notFull.notifyWaiters⟩

section Eq

variable {ch : Channel τ α} {t : τ} {v : α}

theorem send_closed (hc : ch.queue.closed = true) :
    ch.send t v = some (.ready (.error "sync.send: channel is closed"), ch) := by
  have h : sendAttempt v (ch.queue, ch.notEmpty) = some (.error _, ch.queue, ch.notEmpty) :=
    if_pos hc
  rw [send, waitLoop_ready h]
  rfl

theorem send_full (hc : ch.queue.closed = false) (hf : ch.queue.isFull = true) :
    ch.send t v = some (.pending, { ch with notFull := ch.notFull.park (t, v) }) := by
  rw [send, waitLoop_pending (by simp [sendAttempt, hc, hf]) (by simp [sendRecheck, hc, hf])]
  rfl

theorem send_free (hc : ch.queue.closed = false) (hf : ch.queue.isFull = false) :
    ch.send t v = some (.ready (.ok ()), { ch with
      queue := { ch.queue with queue := ch.queue.queue ++ [v] }
      notEmpty := ch.notEmpty.notifyOne }) := by
  have h : sendAttempt v (ch.queue, ch.notEmpty) = some (.ok (),
      { ch.queue with queue := ch.queue.queue ++ [v] }, ch.notEmpty.notifyOne) := by
    simp [sendAttempt, hc, hf]
  rw [send, waitLoop_ready h]
  rfl

theorem recv_value (h : ch.queue.queue = v :: rest) :
    ch.recv t = some (.ready (.value v), { ch with
      queue := { ch.queue with queue := rest }
      notFull := ch.notFull.notifyOne }) := by
  have ha : recvAttempt (ch.queue, ch.notFull) =
      some (.value v, { ch.queue with queue := rest }, ch.notFull.notifyOne) := by
    simp only [recvAttempt, h]
  rw [recv, waitLoop_ready ha]
  rfl

theorem recv_closed (h : ch.queue.queue = []) (hc : ch.queue.closed = true) :
    ch.recv t = some (.ready .closed, ch) := by
  have ha : recvAttempt (ch.queue, ch.notFull) = some (.closed, ch.queue, ch.notFull) := by
    simp only [recvAttempt, h, hc, ↓reduceIte]
  rw [recv, waitLoop_ready ha]
  rfl

theorem recv_empty (h : ch.queue.queue = []) (hc : ch.queue.closed = false) :
    ch.recv t = some (.pending, { ch with notEmpty := ch.notEmpty.park t }) := by
  rw [recv, waitLoop_pending (by simp [recvAttempt, h, hc]) (by simp [recvRecheck, h, hc])]
  rfl

end Eq

end Channel

structure Semaphore (τ : Type u) where
  available : Nat
  permitAvailable : Notify τ
  max : Nat

namespace Semaphore

def new (permits : Nat) : Semaphore τ := ⟨permits, .new, permits⟩

def acquireAttempt : Nat → Option (Unit × Nat)
  | 0 => none
  | available + 1 => some ((), available)

def acquire (s : Semaphore τ) (t : τ) : Option (Poll Unit × Semaphore τ) :=
  (waitLoop acquireAttempt (0 < ·) t 2 s.available s.permitAvailable).map
    fun (p, available, permitAvailable) => (p, { s with available, permitAvailable })

def release (s : Semaphore τ) : Semaphore τ :=
  if s.available < s.max then
    { s with available := s.available + 1, permitAvailable := s.permitAvailable.notifyOne }
  else s

section Eq

variable {s : Semaphore τ} {t : τ}

theorem acquire_free (h : s.available = m + 1) :
    s.acquire t = some (.ready (), { s with available := m }) := by
  have ha : acquireAttempt s.available = some ((), m) := by rw [h, acquireAttempt]
  rw [acquire, waitLoop_ready ha]
  rfl

theorem acquire_empty (h : s.available = 0) :
    s.acquire t = some (.pending, { s with permitAvailable := s.permitAvailable.park t }) := by
  rw [acquire, waitLoop_pending (by rw [h, acquireAttempt]) (by simp [h])]
  rfl

theorem release_of_lt (h : s.available < s.max) : s.release =
    { s with available := s.available + 1, permitAvailable := s.permitAvailable.notifyOne } :=
  if_pos h

end Eq

end Semaphore

end AScript.Stdlib
