import AScript.Lib.Bucket
import AScript.Lib.Machine
import Mathlib

universe u

namespace AScript.Stdlib

open AScript.Lib

variable {τ : Type u}

/-- The options, as the constructor checks them. -/
structure LimiterConfig where
  capacity : ℚ
  refillPerSec : ℚ
  one_le_capacity : 1 ≤ capacity
  refill_nonneg : 0 ≤ refillPerSec

structure Limiter where
  tokens : ℚ
  lastMs : ℚ

inductive LimiterReply
  | nil
  | bool (b : Bool)
  | parked (sleepMs : Nat)
  | deadlineExceeded
  | panic (message : String)

namespace Limiter

variable (cfg : LimiterConfig)

def refill (b : Limiter) (now : ℚ) : Limiter :=
  let elapsedMs := max (now - b.lastMs) 0
  let replenish := elapsedMs / 1000 * cfg.refillPerSec
  ⟨min (b.tokens + replenish) cfg.capacity, now⟩

def tryAcquire (b : Limiter) (now n : ℚ) : LimiterReply × Limiter :=
  if n < 0 then (.panic "limiter.tryAcquire: n must be non-negative", b)
  else
    let b := b.refill cfg now
    if n ≤ b.tokens then (.bool true, { b with tokens := b.tokens - n }) else (.bool false, b)

def sleepMs (deficit : ℚ) : Nat :=
  min ⌊max (deficit / cfg.refillPerSec * 1000) 1⌋₊ (2 ^ 64 - 1)

/-- One turn of the loop of `acquire`, with what is left of the deadline, if there is one. -/
def turn (b : Limiter) (now n : ℚ) (deadline : Option ℚ) : LimiterReply × Limiter :=
  let b := b.refill cfg now
  if n ≤ b.tokens then (.nil, { b with tokens := b.tokens - n })
  else if cfg.refillPerSec ≤ 0 then
    (.panic "limiter.acquire: cannot acquire tokens from a zero-refill limiter", b)
  else if deadline.any (· ≤ 0) then (.deadlineExceeded, b)
  else (.parked (sleepMs cfg (n - b.tokens)), b)

def acquire (b : Limiter) (now n : ℚ) (deadline : Option ℚ) : LimiterReply × Limiter :=
  if n < 0 then (.panic "limiter.acquire: n must be non-negative", b)
  else b.turn cfg now n deadline

structure Waiter (τ : Type u) where
  task : τ
  n : ℚ
  nonneg : 0 ≤ n
  hasDeadline : Bool

/-- The grants are for the record only. -/
structure System (τ : Type u) where
  limiter : Limiter
  clock : ℚ
  waiters : List (Waiter τ)
  grants : Bucket.Ledger ℚ

/-- A count that is missing is 1. A waiter may wake at any reading of the clock, as it sleeps on
another one. -/
inductive Event (τ : Type u)
  | tryAcquire (n : Option ℚ)
  | acquire (t : τ) (n : Option ℚ) (deadline : Option ℚ)
  | wake (k : Nat) (deadline : Option ℚ)
  | expire (k : Nat)
  | cancel (k : Nat)
  | advance (clock : ℚ)

inductive Effect (τ : Type u)
  | tried (r : LimiterReply)
  | replied (t : τ) (r : LimiterReply)
  | silent

namespace System

/-- A new limiter is full; its first reading is not of the clock that later calls read. -/
def start (cfg : LimiterConfig) (lastMs clock : ℚ) : System τ :=
  ⟨⟨cfg.capacity, lastMs⟩, clock, [], []⟩

def settle (s : System τ) (t : τ) (n : ℚ) (hn : 0 ≤ n) (hasDeadline : Bool) :
    LimiterReply × Limiter → Effect τ × System τ
  | (.nil, b) => (.replied t .nil, { s with limiter := b, grants := s.grants ++ [(s.clock, n)] })
  | (.parked ms, b) =>
    (.replied t (.parked ms),
      { s with limiter := b, waiters := s.waiters ++ [⟨t, n, hn, hasDeadline⟩] })
  | (r, b) => (.replied t r, { s with limiter := b })

def step (cfg : LimiterConfig) (s : System τ) : Event τ → Option (Effect τ × System τ)
  | .tryAcquire n =>
    match s.limiter.tryAcquire cfg s.clock (n.getD 1) with
    | (.bool true, b) => some (.tried (.bool true),
        { s with limiter := b, grants := s.grants ++ [(s.clock, n.getD 1)] })
    | (r, b) => some (.tried r, { s with limiter := b })
  | .acquire t n deadline =>
    if h : n.getD 1 < 0 then
      some (.replied t (s.limiter.acquire cfg s.clock (n.getD 1) deadline).1, s)
    else some (s.settle t (n.getD 1) (not_lt.mp h) deadline.isSome
      (s.limiter.acquire cfg s.clock (n.getD 1) deadline))
  | .wake k deadline => s.waiters[k]?.map fun w =>
    { s with waiters := s.waiters.eraseIdx k }.settle w.task w.n w.nonneg w.hasDeadline
      (s.limiter.turn cfg s.clock w.n (if w.hasDeadline then deadline else none))
  | .expire k => s.waiters[k]?.bind fun w =>
    if w.hasDeadline then
      some (.replied w.task .deadlineExceeded, { s with waiters := s.waiters.eraseIdx k })
    else none
  | .cancel k => s.waiters[k]?.map fun _ =>
    (.silent, { s with waiters := s.waiters.eraseIdx k })
  | .advance clock => if s.clock ≤ clock then some (.silent, { s with clock }) else none

def machine (cfg : LimiterConfig) : Machine (System τ) (Event τ) (Effect τ) := ⟨step cfg⟩

end System

def rate : ℚ := cfg.refillPerSec / 1000

def bucket (b : Limiter) : Bucket ℚ := ⟨b.tokens, b.lastMs⟩

theorem rate_nonneg : 0 ≤ rate cfg := div_nonneg cfg.refill_nonneg (by norm_num)

theorem refill_bucket (b : Limiter) (now : ℚ) :
    (b.refill cfg now).bucket = b.bucket.refill cfg.capacity (rate cfg) now := by
  simp only [refill, bucket, Bucket.refill, rate]
  congr 3
  ring

namespace System

variable {cfg : LimiterConfig} {s s' : System τ}

def Sound (cfg : LimiterConfig) (s : System τ) : Prop :=
  Bucket.Sound cfg.capacity (rate cfg) s.limiter.bucket s.grants s.clock

theorem sound_start (lastMs clock : ℚ) : Sound cfg (start cfg lastMs clock : System τ) :=
  .full (zero_le_one.trans cfg.one_le_capacity) (rate_nonneg cfg) lastMs clock

theorem Sound.refilled (h : Sound cfg s) :
    Bucket.Sound cfg.capacity (rate cfg) (s.limiter.refill cfg s.clock).bucket s.grants
      s.clock := by
  rw [refill_bucket]
  exact h.refill (rate_nonneg cfg)

theorem Sound.granted (h : Sound cfg s) (hn : 0 ≤ n)
    (hle : n ≤ (s.limiter.refill cfg s.clock).tokens) :
    Bucket.Sound cfg.capacity (rate cfg)
      (bucket { s.limiter.refill cfg s.clock with
        tokens := (s.limiter.refill cfg s.clock).tokens - n })
      (s.grants ++ [(s.clock, n)]) s.clock :=
  h.refilled.spend (rate_nonneg cfg) rfl hn hle

theorem settle_sound (h : Sound cfg s) (t : τ) (hn : 0 ≤ n) (d : Bool) (deadline : Option ℚ) :
    Sound cfg (s.settle t n hn d (s.limiter.turn cfg s.clock n deadline)).2 := by
  unfold turn
  dsimp only
  split
  next hle => exact h.granted hn hle
  next =>
    split
    · exact h.refilled
    · split
      · exact h.refilled
      · exact h.refilled

theorem tryAcquire_cases (h : tryAcquire cfg b now n = (r, b')) :
    (r = .bool true ∧ 0 ≤ n ∧ n ≤ (b.refill cfg now).tokens ∧
      b' = { b.refill cfg now with tokens := (b.refill cfg now).tokens - n }) ∨
    (r = .bool false ∧ b' = b.refill cfg now) ∨ ((∃ text, r = .panic text) ∧ b' = b) := by
  unfold tryAcquire at h
  split at h
  · cases h
    exact .inr (.inr ⟨⟨_, rfl⟩, rfl⟩)
  next hn =>
    dsimp only at h
    split at h
    next hle =>
      cases h
      exact .inl ⟨rfl, not_lt.mp hn, hle, rfl⟩
    next =>
      cases h
      exact .inr (.inl ⟨rfl, rfl⟩)

theorem step_sound (h : Sound cfg s) (hs : step cfg s e = some (o, s')) : Sound cfg s' := by
  cases e with
  | tryAcquire n =>
    simp only [step] at hs
    split at hs
    next b heq =>
      cases hs
      obtain ⟨-, hn, hle, rfl⟩ | ⟨hr, -⟩ | ⟨⟨_, hr⟩, -⟩ := tryAcquire_cases heq
      · exact h.granted hn hle
      · cases hr
      · cases hr
    next r b hr heq =>
      cases hs
      obtain ⟨rfl, -⟩ | ⟨-, rfl⟩ | ⟨-, rfl⟩ := tryAcquire_cases heq
      · exact (hr rfl).elim
      · exact h.refilled
      · exact h
  | acquire t n deadline =>
    simp only [step] at hs
    split at hs
    · cases hs
      exact h
    next hn =>
      obtain rfl := congrArg Prod.snd (Option.some.inj hs)
      rw [acquire, if_neg hn]
      exact settle_sound h ..
  | wake k deadline =>
    obtain ⟨w, -, heq⟩ := Option.map_eq_some_iff.mp hs
    have hleft : Sound cfg { s with waiters := s.waiters.eraseIdx k } := h
    obtain rfl := congrArg Prod.snd heq
    exact settle_sound hleft ..
  | expire k =>
    obtain ⟨w, -, heq⟩ := Option.bind_eq_some_iff.mp hs
    split at heq
    · cases heq
      exact h
    · cases heq
  | cancel k =>
    obtain ⟨w, -, heq⟩ := Option.map_eq_some_iff.mp hs
    cases heq
    exact h
  | advance clock =>
    simp only [step] at hs
    split at hs
    · cases hs
      exact h.advance ‹_›
    · cases hs

theorem rejected_refill (h : tryAcquire cfg b now n = (.bool false, b')) :
    b' = b.refill cfg now := by
  obtain ⟨hr, -⟩ | ⟨-, hb⟩ | ⟨⟨_, hr⟩, -⟩ := tryAcquire_cases h
  · cases hr
  · exact hb
  · cases hr

/-- After any run the tokens are between none and the capacity, no interval of time saw more
granted than the capacity and its refill, and a rejected call only refills. -/
theorem limiter_bounded (cfg : LimiterConfig) (lastMs clock : ℚ) (es : List (Event τ))
    (os : List (Effect τ)) (s : System τ)
    (hr : (machine cfg).run (start cfg lastMs clock) es = some (os, s)) :
    (0 ≤ s.limiter.tokens ∧ s.limiter.tokens ≤ cfg.capacity) ∧
      (∀ t₀ t₁, t₀ ≤ t₁ →
        Bucket.within s.grants t₀ t₁ ≤ cfg.capacity + cfg.refillPerSec * (t₁ - t₀) / 1000) ∧
      ∀ n s', step cfg s (.tryAcquire n) = some (.tried (.bool false), s') →
        s'.limiter = s.limiter.refill cfg s.clock := by
  have h : Sound cfg s :=
    (machine cfg).run_invariant (fun _ _ _ _ h hs => step_sound h hs) (sound_start lastMs clock) hr
  refine ⟨⟨h.nonneg, h.le_capacity⟩, fun t₀ t₁ ht => ?_, fun n s' hs => ?_⟩
  · have hb := h.bound t₀ t₁ ht
    have hrate : (t₁ - t₀) * rate cfg = cfg.refillPerSec * (t₁ - t₀) / 1000 := by
      rw [rate]
      ring
    rwa [hrate] at hb
  · simp only [step] at hs
    split at hs
    · cases hs
    next r b hr heq =>
      cases hs
      exact rejected_refill heq

def tenTokens : LimiterConfig := ⟨10, 1, by norm_num, by norm_num⟩

def tenEvents : List (Event Nat) :=
  [.tryAcquire (some 10), .tryAcquire none, .acquire 0 none none, .advance 1000, .wake 0 none]

/-- Ten tokens, one a second: ten at once, a call rejected, and one that waits a second. -/
theorem limiter_bounded_ten : ∃ s : System Nat,
    (machine tenTokens).run (start tenTokens 0 0) tenEvents =
      some ([.tried (.bool true), .tried (.bool false), .replied 0 (.parked 1000), .silent,
        .replied 0 .nil], s) ∧
      (0 ≤ s.limiter.tokens ∧ s.limiter.tokens ≤ 10) ∧
      Bucket.within s.grants 0 1000 ≤ 10 + 1 * (1000 - 0) / 1000 ∧
      ∀ n s', step tenTokens s (.tryAcquire n) = some (.tried (.bool false), s') →
        s'.limiter = s.limiter.refill tenTokens s.clock := by
  have hsleep : sleepMs tenTokens 1 = 1000 := by norm_num [sleepMs, tenTokens]
  have hr : (machine tenTokens).run (start tenTokens 0 0) tenEvents =
      some ([.tried (.bool true), .tried (.bool false), .replied 0 (.parked 1000), .silent,
        .replied 0 .nil], (⟨⟨0, 1000⟩, 1000, [], [(0, 10), (1000, 1)]⟩ : System Nat)) := by
    norm_num [machine, Machine.run, step, start, settle, tryAcquire, acquire, turn, refill,
      tenEvents, tenTokens]
    exact hsleep
  obtain ⟨htokens, hgrants, hrejected⟩ := limiter_bounded tenTokens 0 0 tenEvents _ _ hr
  exact ⟨_, hr, htokens, hgrants 0 1000 (by norm_num), hrejected⟩

end System

end Limiter

end AScript.Stdlib
