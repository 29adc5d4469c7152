import Mathlib.Algebra.Ring.Nat
import Mathlib.Data.List.Perm.Basic

universe u v w

namespace AScript.Lib

inductive Wake
  | one
  | all
  deriving DecidableEq

structure Notify (ι : Type u) where
  permit : Bool
  waiting : List ι
  woken : List (Wake × ι)

inductive Slot
  | waiting (k : Nat)
  | woken (k : Nat)
  deriving DecidableEq

namespace Notify

variable {ι : Type u} {n n' : Notify ι} {w : ι} {k units : Nat} {slot : Slot}

def new : Notify ι := ⟨false, [], []⟩

def enable (n : Notify ι) (w : ι) : Bool × Notify ι :=
  if n.permit then (true, { n with permit := false })
  else (false, { n with waiting := n.waiting ++ [w] })

def notifyOne (n : Notify ι) : Notify ι :=
  match n.waiting with
  | [] => { n with permit := true }
  | w :: ws => { n with waiting := ws, woken := n.woken ++ [(.one, w)] }

def notifyWaiters (n : Notify ι) : Notify ι :=
  { n with waiting := [], woken := n.woken ++ n.waiting.map (.all, ·) }

def poll (n : Notify ι) (k : Nat) : Option (ι × Notify ι) :=
  n.woken[k]?.map fun w => (w.2, { n with woken := n.woken.eraseIdx k })

def drop (n : Notify ι) : Slot → Option (Notify ι)
  | .waiting k =>
    if k < n.waiting.length then some { n with waiting := n.waiting.eraseIdx k } else none
  | .woken k => n.woken[k]?.map fun w =>
    let rest := { n with woken := n.woken.eraseIdx k }
    match w.1 with
    | .one => rest.notifyOne
    | .all => rest

def park (n : Notify ι) (w : ι) : Notify ι :=
  { n with permit := false, waiting := n.waiting ++ [w] }

def futures (n : Notify ι) : List ι := n.waiting ++ n.woken.map Prod.snd

def ones (n : Notify ι) : Nat := n.woken.countP fun w => w.1 = .one

theorem perm_eraseIdx {l : List α} (h : l[k]? = some a) : l.Perm (a :: l.eraseIdx k) := by
  obtain ⟨hk, rfl⟩ := List.getElem?_eq_some_iff.mp h
  exact (List.getElem_cons_eraseIdx_perm hk).symm

theorem futures_perm_of_woken {woken : List (Wake × ι)} (h : n.woken.Perm ((how, w) :: woken)) :
    n.futures.Perm (w :: futures { n with woken }) :=
  ((h.map Prod.snd).append_left n.waiting).trans List.perm_middle

theorem futures_park : (n.park w).futures.Perm (w :: n.futures) := by
  simp only [futures, park, List.append_assoc]
  exact List.perm_middle

theorem futures_notifyOne : n.notifyOne.futures.Perm n.futures := by
  obtain ⟨permit, waiting, woken⟩ := n
  cases waiting with
  | nil => exact .rfl
  | cons w ws =>
    simp only [futures, notifyOne, List.map_append, List.map_singleton, ← List.append_assoc]
    exact List.perm_append_singleton w (ws ++ woken.map Prod.snd)

theorem futures_notifyWaiters : n.notifyWaiters.futures.Perm n.futures := by
  simp only [futures, notifyWaiters, List.nil_append, List.map_append, List.map_map,
    Function.comp_def, List.map_id']
  exact List.perm_append_comm

theorem futures_poll (h : n.poll k = some (w, n')) : n.futures.Perm (w :: n'.futures) := by
  obtain ⟨⟨how, x⟩, hx, he⟩ := Option.map_eq_some_iff.mp h
  cases he
  exact futures_perm_of_woken (perm_eraseIdx hx)

theorem ones_poll (h : n.poll k = some (w, n')) : n.ones ≤ n'.ones + 1 := by
  obtain ⟨x, hx, he⟩ := Option.map_eq_some_iff.mp h
  cases he
  simp only [ones, (perm_eraseIdx hx).countP_eq, List.countP_cons]
  split <;> omega

theorem drop_cases (h : n.drop slot = some n') :
    (∃ w rest, n.waiting.Perm (w :: rest) ∧ n' = { n with waiting := rest }) ∨
      (∃ w rest, n.woken.Perm ((.one, w) :: rest) ∧ n' = notifyOne { n with woken := rest }) ∨
      ∃ w rest, n.woken.Perm ((.all, w) :: rest) ∧ n' = { n with woken := rest } := by
  cases slot with
  | waiting k =>
    simp only [drop] at h
    split at h
    next hk =>
      cases h
      exact .inl ⟨_, _, perm_eraseIdx (List.getElem?_eq_getElem hk), rfl⟩
    next => cases h
  | woken k =>
    obtain ⟨⟨how, w⟩, hw, he⟩ := Option.map_eq_some_iff.mp h
    cases how with
    | one => exact .inr (.inl ⟨w, _, perm_eraseIdx hw, he.symm⟩)
    | all => exact .inr (.inr ⟨w, _, perm_eraseIdx hw, he.symm⟩)

theorem futures_drop (h : n.drop slot = some n') : ∃ w, n.futures.Perm (w :: n'.futures) := by
  obtain ⟨w, rest, hp, rfl⟩ | ⟨w, rest, hp, rfl⟩ | ⟨w, rest, hp, rfl⟩ := drop_cases h
  · exact ⟨w, hp.append_right _⟩
  · exact ⟨w, (futures_perm_of_woken hp).trans (futures_notifyOne.symm.cons w)⟩
  · exact ⟨w, futures_perm_of_woken hp⟩

def Covers (n : Notify ι) (units : Nat) : Prop := n.waiting ≠ [] → units ≤ n.ones

theorem covers_of_idle (h : n.waiting = []) : n.Covers units := fun hne => absurd h hne

theorem Covers.mono (h : n.Covers units) (hle : units' ≤ units) : n.Covers units' :=
  fun hne => Nat.le_trans hle (h hne)

theorem covers_park : (n.park w).Covers 0 := fun _ => Nat.zero_le _

theorem Covers.notifyOne (h : n.Covers units) : n.notifyOne.Covers (units + 1) := by
  obtain ⟨permit, waiting, woken⟩ := n
  cases waiting with
  | nil => exact covers_of_idle rfl
  | cons w ws =>
    intro _
    have hle : units ≤ woken.countP fun w => w.1 = .one := h (List.cons_ne_nil w ws)
    simp only [Notify.notifyOne, ones, List.countP_append, List.countP_singleton]
    simpa using hle

theorem Covers.poll (h : n.Covers units) (hp : n.poll k = some (w, n')) :
    n'.Covers (units - 1) := by
  have hones := ones_poll hp
  obtain ⟨x, -, he⟩ := Option.map_eq_some_iff.mp hp
  cases he
  intro hne
  have hle : units ≤ n.ones := h hne
  omega

theorem Covers.drop (h : n.Covers units) (hd : n.drop slot = some n') : n'.Covers units := by
  obtain ⟨w, rest, hp, rfl⟩ | ⟨w, rest, hp, rfl⟩ | ⟨w, rest, hp, rfl⟩ := drop_cases hd
  · intro _
    exact h fun hnil => List.cons_ne_nil w rest (List.perm_nil.mp (hnil ▸ hp.symm))
  · -- the wakeup that is passed on makes up for the one that is lost
    cases units with
    | zero => exact fun _ => Nat.zero_le _
    | succ units =>
      refine Covers.notifyOne fun hne => ?_
      have hle : units + 1 ≤ n.ones := h hne
      rw [ones, hp.countP_eq, List.countP_cons_of_pos rfl] at hle
      exact Nat.le_of_succ_le_succ hle
  · intro hne
    have hle : units ≤ n.ones := h hne
    rwa [ones, hp.countP_eq, List.countP_cons_of_neg (by simp)] at hle

theorem Covers.woken_ne_nil (h : n.Covers units) (hw : n.waiting ≠ []) (hu : 0 < units) :
    n.woken ≠ [] := by
  intro hnil
  have hle := h hw
  rw [ones, hnil, List.countP_nil] at hle
  omega

theorem idle_notifyOne (h : n.waiting = []) : n.notifyOne.waiting = [] := by
  rw [Notify.notifyOne, h]

theorem idle_poll (h : n.waiting = []) (hp : n.poll k = some (w, n')) : n'.waiting = [] := by
  obtain ⟨x, -, he⟩ := Option.map_eq_some_iff.mp hp
  cases he
  exact h

theorem idle_drop (h : n.waiting = []) (hd : n.drop slot = some n') : n'.waiting = [] := by
  obtain ⟨w, rest, hp, rfl⟩ | ⟨w, rest, hp, rfl⟩ | ⟨w, rest, hp, rfl⟩ := drop_cases hd
  · exact absurd (h ▸ hp.symm) (fun hp => List.cons_ne_nil w rest (List.perm_nil.mp hp))
  · exact idle_notifyOne h
  · exact h

end Notify

inductive Poll (ω : Type w)
  | ready (o : ω)
  | pending

section Loop

variable {ι : Type u} {σ : Type v} {ω : Type w}

def pass (attempt : σ → Option (ω × σ)) (recheck : σ → Bool) (w : ι) (s : σ) (n : Notify ι) :
    Option (Poll ω) × σ × Notify ι :=
  match attempt s with
  | some (o, s') => (some (.ready o), s', n)
  | none =>
    match n.enable w with
    | (true, n') => (none, s, n')
    | (false, n') => if recheck s then (none, s, n) else (some .pending, s, n')

def waitLoop (attempt : σ → Option (ω × σ)) (recheck : σ → Bool) (w : ι) :
    Nat → σ → Notify ι → Option (Poll ω × σ × Notify ι)
  | 0, _, _ => none
  | fuel + 1, s, n =>
    match pass attempt recheck w s n with
    | (some p, s', n') => some (p, s', n')
    | (none, s', n') => waitLoop attempt recheck w fuel s' n'

variable {attempt : σ → Option (ω × σ)} {recheck : σ → Bool} {w : ι} {s s' : σ} {n : Notify ι}

theorem waitLoop_ready (h : attempt s = some (o, s')) :
    waitLoop attempt recheck w (fuel + 1) s n = some (.ready o, s', n) := by
  simp only [waitLoop, pass, h]

theorem waitLoop_pending (h : attempt s = none) (hr : recheck s = false) :
    waitLoop attempt recheck w (fuel + 2) s n = some (.pending, s, n.park w) := by
  obtain ⟨permit, waiting, woken⟩ := n
  cases permit <;> simp [waitLoop, pass, h, hr, Notify.enable, Notify.park]

end Loop

end AScript.Lib
