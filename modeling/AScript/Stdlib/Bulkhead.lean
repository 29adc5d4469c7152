import AScript.Stdlib.Permit

universe u

namespace AScript.Stdlib

open AScript.Lib

variable {τ : Type u}

/-- The policy's fields, and the calls that hold a permit. -/
structure Bulkhead (τ : Type u) where
  name : String
  queue : Int
  sem : Semaphore τ
  waiting : Int
  running : List τ

namespace Bulkhead

/-- The pair or signal a call ends with, if a step ends one. -/
inductive Answer
  | error (message code : String)
  | done (o : Outcome)
  | none

/-- A task calls, is polled after a wakeup, runs out of its budget, is cancelled, or its function
ends, with any future it returned. -/
inductive Event (τ : Type u)
  | run (t : τ) (expired : Bool)
  | poll (k : Nat)
  | expire (slot : Slot)
  | cancelParked (slot : Slot)
  | cancelRunning (k : Nat)
  | finish (k : Nat) (o : Outcome)

/-- The queue bound is kept as a signed word. -/
def new (name : String) (limit queue : Nat) : Bulkhead τ :=
  ⟨name, Int.bmod queue (2 ^ 64), .new limit, 0, []⟩

def full (b : Bulkhead τ) : Answer :=
  .error ("bulkhead '" ++ b.name ++ "' queue is full") "bulkhead-full"

def deadlineExceeded : Answer := .error "deadline exceeded" "deadline-exceeded"

def unwait (b : Bulkhead τ) : Bulkhead τ := { b with waiting := max (b.waiting - 1) 0 }

def acquire (b : Bulkhead τ) (t : τ) (needsWait : Bool) : Option (Answer × Bulkhead τ) :=
  (b.sem.acquire t).map fun
    | (.ready _, sem) =>
      let b' := { b with sem, running := b.running ++ [t] }
      (.none, if needsWait then b'.unwait else b')
    | (.pending, sem) => (.none, { b with sem })

/-- `expired`: no budget is left, or its timer is seen first. -/
def run (b : Bulkhead τ) (t : τ) (expired : Bool) : Option (Answer × Bulkhead τ) :=
  let needsWait := b.sem.available == 0
  if needsWait && b.queue ≤ b.waiting then some (b.full, b)
  else
    let b' := if needsWait then { b with waiting := b.waiting + 1 } else b
    if expired then some (deadlineExceeded, if needsWait then b'.unwait else b')
    else b'.acquire t needsWait

def step (b : Bulkhead τ) : Event τ → Option (Answer × Bulkhead τ)
  | .run t expired => b.run t expired
  | .poll k => (b.sem.permitAvailable.poll k).bind fun (t, permitAvailable) =>
    acquire { b with sem := { b.sem with permitAvailable } } t true
  | .expire slot => (b.sem.permitAvailable.drop slot).map fun permitAvailable =>
    (deadlineExceeded, unwait { b with sem := { b.sem with permitAvailable } })
  -- nothing puts the counters back when the call itself is dropped
  | .cancelParked slot => (b.sem.permitAvailable.drop slot).map fun permitAvailable =>
    (.none, { b with sem := { b.sem with permitAvailable } })
  | .cancelRunning k => b.running[k]?.map fun _ =>
      (.none, { b with running := b.running.eraseIdx k })
  | .finish k o => b.running[k]?.map fun _ =>
    (.done o, { b with sem := b.sem.release, running := b.running.eraseIdx k })

def machine : Machine (Bulkhead τ) (Event τ) Answer := ⟨step⟩

def parked (b : Bulkhead τ) : Nat := b.sem.permitAvailable.futures.length

/-- No call is cancelled while it is parked or holds a permit. -/
def Orderly : Event τ → Prop
  | .cancelParked _ => False
  | .cancelRunning _ => False
  | _ => True

/-- `r` waiting calls are being polled: they are counted, and not parked any more. -/
structure Inv (L Q r : Nat) (b : Bulkhead τ) : Prop where
  queue : b.queue ≤ Q
  sem : b.sem.Held L b.running.length r
  waiting : b.waiting = b.parked + r
  bounded : b.waiting ≤ Q

section Steps

variable {b b' : Bulkhead τ} {t : τ} {L Q : Nat}

theorem bmod_le_self (Q : Nat) : Int.bmod Q (2 ^ 64) ≤ Q := by
  have hle : (Q : Int) % (2 ^ 64 : Nat) ≤ Q := Int.ofNat_le.mpr (Nat.mod_le Q (2 ^ 64))
  rw [Int.bmod_eq_emod]
  split <;> omega

theorem inv_new (name : String) (L Q : Nat) : Inv L Q 0 (new name L Q : Bulkhead τ) where
  queue := by
    simp only [new]
    exact bmod_le_self Q
  sem := Semaphore.held_new L
  waiting := rfl
  bounded := Int.natCast_nonneg Q

theorem acquire_waited_inv (ha : b.acquire t true = some (o, b')) (h : Inv L Q 1 b) :
    Inv L Q 0 b' := by
  obtain ⟨⟨p, sem⟩, hs, he⟩ := Option.map_eq_some_iff.mp ha
  have hw := h.waiting
  have hb := h.bounded
  obtain ⟨rfl, -, hf, hheld⟩ | ⟨rfl, -, hf, hheld⟩ := Semaphore.acquire_cases h.sem hs
  · cases he
    refine ⟨h.queue, by simpa [unwait] using hheld, ?_, ?_⟩
    · simp only [unwait, parked, hf, ↓reduceIte] at hw ⊢
      omega
    · simp only [unwait, ↓reduceIte]
      omega
  · cases he
    refine ⟨h.queue, hheld, ?_, hb⟩
    simp only [parked, hf, Notify.futures_park.length_eq, List.length_cons] at hw ⊢
    omega

theorem acquire_free_inv (ha : b.acquire t false = some (o, b')) (h : Inv L Q 0 b)
    (hfree : 0 < b.sem.available) : Inv L Q 0 b' := by
  obtain ⟨⟨p, sem⟩, hs, he⟩ := Option.map_eq_some_iff.mp ha
  obtain ⟨rfl, -, hf, hheld⟩ | ⟨-, h0, -, -⟩ := Semaphore.acquire_cases h.sem.relax hs
  · cases he
    refine ⟨h.queue, by simpa using hheld, ?_, h.bounded⟩
    simp only [parked, hf, Bool.false_eq_true, ↓reduceIte]
    exact h.waiting
  · omega

theorem run_inv (hs : b.run t expired = some (o, b')) (h : Inv L Q 0 b) : Inv L Q 0 b' := by
  cases hw : b.sem.available == 0 with
  | false =>
    simp only [run, hw, Bool.false_and, Bool.false_eq_true, ↓reduceIte] at hs
    have hfree : 0 < b.sem.available := Nat.pos_of_ne_zero (by simpa using hw)
    split at hs
    · cases hs
      exact h
    · exact acquire_free_inv hs h hfree
  | true =>
    simp only [run, hw, Bool.true_and, ↓reduceIte] at hs
    have hq := h.queue
    have hwait := h.waiting
    split at hs
    · cases hs
      exact h
    next hroom =>
      have hlt : b.waiting < b.queue := by simpa using hroom
      split at hs
      · -- the count goes up and down again
        cases hs
        refine ⟨hq, h.sem, ?_, ?_⟩
        · simp only [unwait, parked] at hwait ⊢
          omega
        · simp only [unwait]
          omega
      · refine acquire_waited_inv hs ⟨hq, h.sem.relax, ?_, ?_⟩
        · simp only [parked] at hwait ⊢
          omega
        · simp only
          omega

theorem step_inv (h : Inv L Q 0 b) (he : Orderly e) (hs : b.step e = some (o, b')) :
    Inv L Q 0 b' := by
  have hw := h.waiting
  have hb := h.bounded
  cases e with
  | run t expired => exact run_inv hs h
  | poll k =>
    obtain ⟨⟨t, permitAvailable⟩, hp, hs⟩ := Option.bind_eq_some_iff.mp hs
    refine acquire_waited_inv hs ⟨h.queue, h.sem.poll hp, ?_, hb⟩
    simp only [parked, (Notify.futures_poll hp).length_eq, List.length_cons] at hw ⊢
    omega
  | expire slot =>
    obtain ⟨permitAvailable, hd, heq⟩ := Option.map_eq_some_iff.mp hs
    obtain ⟨x, hx⟩ := Notify.futures_drop hd
    cases heq
    simp only [parked, hx.length_eq, List.length_cons] at hw
    refine ⟨h.queue, h.sem.drop hd, ?_, ?_⟩
    · simp only [unwait, parked]
      omega
    · simp only [unwait]
      omega
  | cancelParked slot => cases he
  | cancelRunning k => cases he
  | finish k o =>
    obtain ⟨t, ht, heq⟩ := Option.map_eq_some_iff.mp hs
    cases heq
    have hheld := h.sem
    rw [(Notify.perm_eraseIdx ht).length_eq, List.length_cons] at hheld
    refine ⟨h.queue, hheld.release, ?_, hb⟩
    simp only [parked, Semaphore.futures_release.length_eq]
    exact hw

end Steps

/-- The counters tell the calls that are parked and the calls that run, and no permit is lost. -/
theorem bulkhead_accounts {b : Bulkhead τ} (name : String) {L Q : Nat} (hes : ∀ e ∈ es, Orderly e)
    (hr : machine.run (new name L Q) es = some (os, b)) :
    b.running.length ≤ L ∧ (b.waiting = b.parked ∧ b.waiting ≤ Q) ∧
      b.sem.available + b.running.length = L ∧
      (b.sem.permitAvailable.waiting ≠ [] → 0 < b.sem.available →
        b.sem.permitAvailable.woken ≠ []) := by
  have hinv : Inv L Q 0 b :=
    (machine.run_along (Q := fun _ => True) (fun s e o s' h he hs => ⟨trivial, step_inv h he hs⟩)
      (inv_new name L Q) (machine.along_of_forall fun _ => hes) hr).2
  have htotal := hinv.sem.total
  exact ⟨by omega, ⟨hinv.waiting, hinv.bounded⟩, htotal, hinv.sem.woken⟩

def busyRun : List (Event Nat) :=
  [.run 0 false, .run 1 false, .run 2 false, .expire (.waiting 0), .run 3 false, .finish 0 .panic,
    .poll 0]

theorem bulkhead_accounts_busy :
    ∃ os, ∃ b : Bulkhead Nat, machine.run (new "db" 1 1) busyRun = some (os, b) ∧
      b.running = [3] ∧ b.running.length ≤ 1 ∧ (b.waiting = b.parked ∧ b.waiting ≤ 1) ∧
      b.sem.available + b.running.length = 1 := by
  obtain ⟨os, b, hr, hrun⟩ : ∃ os, ∃ b : Bulkhead Nat,
      machine.run (new "db" 1 1) busyRun = some (os, b) ∧ b.running = [3] := ⟨_, _, rfl, rfl⟩
  have hes : ∀ e ∈ busyRun, Orderly e := by simp [busyRun, Orderly]
  obtain ⟨hle, hwait, htotal, -⟩ := bulkhead_accounts "db" hes hr
  exact ⟨os, b, hr, hrun, hle, hwait, htotal⟩

/-- A cancelled call that was parked stays counted; one that held a permit keeps it. -/
theorem bulkhead_leaks :
    (∃ os, ∃ b : Bulkhead Nat, machine.run (new "db" 1 1)
        [.run 0 false, .run 1 false, .cancelParked (.waiting 0)] = some (os, b) ∧
      b.waiting ≠ b.parked) ∧
    ∃ os, ∃ b : Bulkhead Nat, machine.run (new "db" 1 1) [.run 0 false, .cancelRunning 0] =
        some (os, b) ∧
      b.sem.available + b.running.length ≠ 1 :=
  ⟨⟨_, _, rfl, by decide⟩, _, _, rfl, by decide⟩

end Bulkhead

end AScript.Stdlib
