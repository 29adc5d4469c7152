import AScript.Lib.Machine
import AScript.Stdlib.Sync

universe u

namespace AScript.Stdlib

open AScript.Lib

variable {τ : Type u}

inductive Outcome
  | value
  | future
  | panic
  | propagate
  | exit
  deriving DecidableEq

namespace Semaphore

/-- `r` acquirers are being polled, and stand for no wakeup any more. -/
structure Held (n held r : Nat) (s : Semaphore τ) : Prop where
  max : s.max = n
  total : s.available + held = n
  covers : s.permitAvailable.Covers (s.available - r)

section Held

variable {s s' : Semaphore τ} {t : τ} {q : Notify τ}

theorem held_new (n : Nat) : Held n 0 0 (new n : Semaphore τ) :=
  ⟨rfl, rfl, Notify.covers_of_idle rfl⟩

theorem Held.relax (h : Held n held 0 s) : Held n held r s :=
  { h with covers := h.covers.mono (Nat.sub_le _ _) }

theorem Held.poll (h : Held n held 0 s) (hp : s.permitAvailable.poll k = some (t, q)) :
    Held n held 1 { s with permitAvailable := q } :=
  { h with covers := h.covers.poll hp }

theorem Held.drop (h : Held n held 0 s) (hd : s.permitAvailable.drop slot = some q) :
    Held n held 0 { s with permitAvailable := q } :=
  { h with covers := h.covers.drop hd }

theorem acquire_cases (h : Held n held 1 s) (ha : s.acquire t = some (p, s')) :
    (p = .ready () ∧ 0 < s.available ∧ s'.permitAvailable = s.permitAvailable ∧
      Held n (held + 1) 0 s') ∨
    (p = .pending ∧ s.available = 0 ∧ s'.permitAvailable = s.permitAvailable.park t ∧
      Held n held 0 s') := by
  have htotal := h.total
  cases hav : s.available with
  | zero =>
    rw [acquire_empty hav] at ha
    cases ha
    refine .inr ⟨rfl, rfl, rfl, h.max, h.total, ?_⟩
    simp only [hav]
    exact Notify.covers_park
  | succ m =>
    rw [acquire_free hav] at ha
    cases ha
    have hcov := h.covers
    rw [hav] at hcov
    exact .inl ⟨rfl, Nat.succ_pos m, rfl, h.max, by simp only; omega, hcov⟩

theorem Held.release (h : Held n (held + 1) 0 s) : Held n held 0 s.release := by
  have hmax := h.max
  have htotal := h.total
  rw [release_of_lt (by omega)]
  exact ⟨hmax, by simp only; omega, h.covers.notifyOne⟩

theorem futures_release : s.release.permitAvailable.futures.Perm s.permitAvailable.futures := by
  rw [Semaphore.release]
  split
  · exact Notify.futures_notifyOne
  · exact .rfl

theorem Held.woken (h : Held n held 0 s) (hw : s.permitAvailable.waiting ≠ [])
    (ha : 0 < s.available) : s.permitAvailable.woken ≠ [] :=
  h.covers.woken_ne_nil hw ha

end Held

end Semaphore

/-- The calls that hold a permit while their function runs, and the futures such calls have
returned that are not settled. -/
structure WithPermit (τ : Type u) where
  sem : Semaphore τ
  running : List τ
  background : List τ

namespace WithPermit

/-- A task calls, is polled after a wakeup, is cancelled, or its function returns. -/
inductive Event (τ : Type u)
  | withPermit (t : τ)
  | poll (k : Nat)
  | cancelAcquire (slot : Slot)
  | cancelBody (k : Nat)
  | finish (k : Nat) (o : Outcome)
  | settle (k : Nat)

def new (permits : Nat) : WithPermit τ := ⟨.new permits, [], []⟩

def acquire (s : WithPermit τ) (t : τ) : Option (WithPermit τ) :=
  (s.sem.acquire t).map fun
    | (.ready _, sem) => { s with sem, running := s.running ++ [t] }
    | (.pending, sem) => { s with sem }

def step (s : WithPermit τ) : Event τ → Option (WithPermit τ)
  | .withPermit t => s.acquire t
  | .poll k => (s.sem.permitAvailable.poll k).bind fun (t, permitAvailable) =>
    acquire { s with sem := { s.sem with permitAvailable } } t
  | .cancelAcquire slot => (s.sem.permitAvailable.drop slot).map fun permitAvailable =>
    { s with sem := { s.sem with permitAvailable } }
  -- the release stands behind the call, and is not reached
  | .cancelBody k => s.running[k]?.map fun _ => { s with running := s.running.eraseIdx k }
  | .finish k o => s.running[k]?.map fun t =>
    { sem := s.sem.release
      running := s.running.eraseIdx k
      background := if o = .future then s.background ++ [t] else s.background }
  | .settle k => s.background[k]?.map fun _ => { s with background := s.background.eraseIdx k }

def machine : Machine (WithPermit τ) (Event τ) Unit := ⟨fun s e => (s.step e).map ((), ·)⟩

def inProgress (s : WithPermit τ) : Nat := s.running.length + s.background.length

/-- No body is cancelled, and none returns before it is settled. -/
def Orderly : Event τ → Prop
  | .cancelBody _ => False
  | .finish _ o => o ≠ .future
  | _ => True

structure Inv (n : Nat) (s : WithPermit τ) : Prop where
  sem : s.sem.Held n s.running.length 0
  background : s.background = []

section Steps

variable {s s' : WithPermit τ} {t : τ}

theorem acquire_inv (h : s.acquire t = some s') (hs : s.sem.Held n s.running.length 1)
    (hb : s.background = []) : Inv n s' := by
  obtain ⟨⟨p, sem⟩, ha, he⟩ := Option.map_eq_some_iff.mp h
  obtain ⟨rfl, -, -, hheld⟩ | ⟨rfl, -, -, hheld⟩ := Semaphore.acquire_cases hs ha
  · cases he
    exact ⟨by simpa using hheld, hb⟩
  · cases he
    exact ⟨hheld, hb⟩

theorem step_inv (h : Inv n s) (he : Orderly e) (hs : s.step e = some s') : Inv n s' := by
  cases e with
  | withPermit t => exact acquire_inv hs h.sem.relax h.background
  | poll k =>
    obtain ⟨⟨t, permitAvailable⟩, hp, hs⟩ := Option.bind_eq_some_iff.mp hs
    exact acquire_inv hs (h.sem.poll hp) h.background
  | cancelAcquire slot =>
    obtain ⟨permitAvailable, hd, rfl⟩ := Option.map_eq_some_iff.mp hs
    exact ⟨h.sem.drop hd, h.background⟩
  | cancelBody k => cases he
  | finish k o =>
    obtain ⟨t, ht, rfl⟩ := Option.map_eq_some_iff.mp hs
    have hlen := (Notify.perm_eraseIdx ht).length_eq
    have hheld := h.sem
    rw [hlen, List.length_cons] at hheld
    exact ⟨hheld.release, (if_neg he).trans h.background⟩
  | settle k =>
    obtain ⟨t, ht, -⟩ := Option.map_eq_some_iff.mp hs
    rw [h.background] at ht
    cases ht

end Steps

/-- A permit is granted and its body started in one step, so every permit is free or belongs to a
body, and none is free while everyone sleeps. -/
theorem withPermit_bounds {s : WithPermit τ} (hes : ∀ e ∈ es, Orderly e)
    (hr : machine.run (new n) es = some (os, s)) :
    s.inProgress ≤ n ∧ s.sem.available + s.inProgress = n ∧
      (s.sem.permitAvailable.waiting ≠ [] → 0 < s.sem.available →
        s.sem.permitAvailable.woken ≠ []) := by
  have hnew : Inv n (new n : WithPermit τ) := ⟨Semaphore.held_new n, rfl⟩
  have hinv : Inv n s := by
    refine (machine.run_along (Q := fun _ => True) (fun s e o s' h he hs => ⟨trivial, ?_⟩) hnew
      (machine.along_of_forall fun _ => hes) hr).2
    obtain ⟨s₁, hs₁, heq⟩ := Option.map_eq_some_iff.mp hs
    cases heq
    exact step_inv h he hs₁
  have hprog : s.inProgress = s.running.length := by
    rw [inProgress, hinv.background, List.length_nil, Nat.add_zero]
  have htotal := hinv.sem.total
  rw [hprog]
  exact ⟨by omega, htotal, hinv.sem.woken⟩

def queueRun : List (Event Nat) :=
  [.withPermit 0, .withPermit 1, .cancelAcquire (.waiting 0), .withPermit 2, .finish 0 .panic,
    .poll 0]

def queued : WithPermit Nat := ⟨⟨0, ⟨false, [], []⟩, 1⟩, [2], []⟩

theorem withPermit_bounds_queue :
    machine.run (new 1) queueRun = some ([(), (), (), (), (), ()], queued) ∧
      queued.inProgress ≤ 1 ∧ queued.sem.available + queued.inProgress = 1 := by
  have hr : machine.run (new 1) queueRun = some ([(), (), (), (), (), ()], queued) := rfl
  obtain ⟨hle, htotal, -⟩ := withPermit_bounds (by simp [queueRun, Orderly]) hr
  exact ⟨hr, hle, htotal⟩

/-- A call that returns an unsettled future gives its permit back while its body runs (an async
function of the tree-walker; the machine runs an async closure inline), and one that is cancelled
keeps it. -/
theorem withPermit_leaks :
    (∃ os, ∃ s : WithPermit Nat, machine.run (new 1)
      [.withPermit 0, .finish 0 .future, .withPermit 1] = some (os, s) ∧ ¬s.inProgress ≤ 1) ∧
    ∃ os, ∃ s : WithPermit Nat, machine.run (new 1) [.withPermit 0, .cancelBody 0] = some (os, s) ∧
      s.sem.available + s.inProgress ≠ 1 :=
  ⟨⟨_, _, rfl, by decide⟩, _, _, rfl, by decide⟩

end WithPermit

end AScript.Stdlib
