import AScript.Lib.Meet
import AScript.Stdlib.Caps
import Mathlib.Data.Set.Basic
import Mathlib.Data.Set.BooleanAlgebra
import Mathlib.Order.CompletePartialOrder

namespace AScript.Stdlib

open AScript.Lib

/-- One use of a capability, on the resource it names. -/
inductive Access
  | fs (path : Path) (isWrite : Bool)
  | net (host : String)
  | process
  | ffi
  | env

namespace CapSet

def permits (fs : FileSystem) (c : CapSet) : Access → Bool
  | .fs path isWrite =>
    match c.dispatchDecision .fs with
    | .allow => true
    | .deny => false
    | .defer => c.fsScope.any (·.allowsPath fs path isWrite)
  | .net host =>
    match c.dispatchDecision .net with
    | .allow => true
    | .deny => false
    | .defer => c.netScope.any (·.allowsHost host)
  | .process => c.dispatchDecision .process = .allow
  | .ffi => c.dispatchDecision .ffi = .allow
  | .env => c.dispatchDecision .env = .allow

def permitted (fs : FileSystem) (c : CapSet) : Set Access := {x | c.permits fs x}

end CapSet

structure Scope.Within (strict : δ) (a b : Scope δ) : Prop where
  deny : a.deny = strict ∨ b.deny ≠ strict
  allow : ∀ s ∈ a.allow, s ∈ b.allow

inductive Hold (δ : Type)
  | granted
  | carved (s : Scope δ)
  | denied

namespace Hold

variable {δ : Type}

def Below (strict : δ) : Hold δ → Hold δ → Prop
  | denied, _ => True
  | _, granted => True
  | carved a, carved b => a.Within strict b
  | _, _ => False

def ofClass (full : Bool) (s : Option (Scope δ)) : Hold δ :=
  if full then granted else s.elim denied carved

def meet (stricter : δ → δ → δ) : Hold δ → Hold δ → Hold δ
  | granted, h => h
  | h, granted => h
  | carved a, carved b => carved ⟨stricter a.deny b.deny, intersectAllow a.allow b.allow⟩
  | _, _ => denied

theorem below_granted (strict : δ) (h : Hold δ) : h.Below strict granted := by
  cases h <;> trivial

theorem Below.refl (strict : δ) (h : Hold δ) : h.Below strict h := by
  cases h with
  | granted => trivial
  | carved s => exact ⟨em _, fun _ hs => hs⟩
  | denied => trivial

theorem Below.trans {h₁ h₂ h₃ : Hold δ} (h : h₁.Below strict h₂) (h' : h₂.Below strict h₃) :
    h₁.Below strict h₃ := by
  match h₁, h₂, h₃ with
  | denied, _, _ => trivial
  | h, _, granted => exact below_granted _ h
  | carved a, carved b, carved c =>
    refine ⟨?_, fun s hs => h'.allow s (h.allow s hs)⟩
    cases h.deny with
    | inl ha => exact .inl ha
    | inr hb => exact .inr (h'.deny.resolve_left hb)
  | granted, carved _, _ => cases h
  | granted, denied, _ => cases h
  | carved _, denied, _ => cases h
  | granted, granted, carved _ => cases h'
  | carved _, granted, carved _ => cases h'
  | _, granted, denied => cases h'
  | _, carved _, denied => cases h'

end Hold

theorem mem_intersectAllow : s ∈ intersectAllow a b ↔ s ∈ a ∧ s ∈ b := by
  have hfold (out : List String) :
      s ∈ a.foldl (fun out s => if b.contains s && !out.contains s then out ++ [s] else out) out ↔
        s ∈ out ∨ s ∈ a ∧ s ∈ b := by
    induction a generalizing out with
    | nil => simp
    | cons t a ih =>
      rw [List.foldl_cons, ih]
      by_cases hb : t ∈ b <;> by_cases ho : t ∈ out <;> simp [hb, ho] <;> grind
  exact (hfold []).trans (by simp)

section Stricter

variable [DecidableEq δ] {strict loose : δ}

theorem stricter_eq (hl : loose ≠ strict) :
    stricter strict loose a b = strict ↔ a = strict ∨ b = strict := by
  rw [stricter]
  split
  · simpa
  · simp_all

theorem Hold.meet_left (hl : loose ≠ strict) (a b : Hold δ) :
    (a.meet (stricter strict loose) b).Below strict a := by
  match a, b with
  | granted, h => exact below_granted _ _
  | carved a, granted => exact .refl _ _
  | carved a, carved b =>
    refine ⟨?_, fun s hs => (mem_intersectAllow.mp hs).1⟩
    rw [stricter_eq hl]
    exact (em (a.deny = strict)).imp .inl id
  | carved _, denied => trivial
  | denied, h => cases h <;> trivial

theorem Hold.meet_right (hl : loose ≠ strict) (a b : Hold δ) :
    (a.meet (stricter strict loose) b).Below strict b := by
  match a, b with
  | granted, h => exact .refl _ _
  | h, granted => exact below_granted _ _
  | carved a, carved b =>
    refine ⟨?_, fun s hs => (mem_intersectAllow.mp hs).2⟩
    rw [stricter_eq hl]
    exact (em (b.deny = strict)).imp .inr id
  | carved _, denied => trivial
  | denied, carved _ => trivial
  | denied, denied => trivial

theorem Hold.meet_greatest (hl : loose ≠ strict) {a b c : Hold δ}
    (ha : c.Below strict a) (hb : c.Below strict b) :
    c.Below strict (a.meet (stricter strict loose) b) := by
  match a, b, c with
  | _, _, denied => trivial
  | granted, _, _ => exact hb
  | carved _, granted, _ => exact ha
  | denied, granted, _ => exact ha
  | carved a, carved b, carved c =>
    refine ⟨?_, fun s hs => mem_intersectAllow.mpr ⟨ha.allow s hs, hb.allow s hs⟩⟩
    by_cases hc : c.deny = strict
    · exact .inl hc
    · refine .inr fun h => ?_
      cases (stricter_eq hl).mp h with
      | inl h => exact ha.deny.resolve_left hc h
      | inr h => exact hb.deny.resolve_left hc h
  | carved _, carved _, granted => cases ha
  | carved _, denied, granted => cases ha
  | carved _, denied, carved _ => cases hb
  | denied, carved _, granted => cases ha
  | denied, carved _, carved _ => cases ha
  | denied, denied, granted => cases ha
  | denied, denied, carved _ => cases ha

end Stricter

namespace CapSet

def fsHold (c : CapSet) : Hold FsDeny := .ofClass (c.has .fs) c.fsScope

def netHold (c : CapSet) : Hold NetDeny := .ofClass (c.has .net) c.netScope

structure Within (c d : CapSet) : Prop where
  fs : c.fsHold.Below .all d.fsHold
  net : c.netHold.Below .all d.netHold
  has : ∀ cap, c.has cap → d.has cap

instance : Preorder CapSet where
  le := Within
  le_refl _ := ⟨.refl _ _, .refl _ _, fun _ h => h⟩
  le_trans _ _ _ h h' :=
    ⟨h.fs.trans h'.fs, h.net.trans h'.net, fun cap hc => h'.has cap (h.has cap hc)⟩

theorem and_bit (a : UInt8) (cap : Cap) : a &&& cap.bit = 0 ∨ a &&& cap.bit = cap.bit := by
  have h : ∀ n : Fin 256, ∀ cap ∈ Cap.all,
      UInt8.ofFin n &&& cap.bit = 0 ∨ UInt8.ofFin n &&& cap.bit = cap.bit := by
    decide +kernel
  exact h a.toFin cap (by cases cap <;> decide)

theorem bit_ne_zero (cap : Cap) : cap.bit ≠ 0 := by
  cases cap <;> decide

theorem and_and_bit (a b : UInt8) (cap : Cap) :
    (a &&& b) &&& cap.bit ≠ 0 ↔ a &&& cap.bit ≠ 0 ∧ b &&& cap.bit ≠ 0 := by
  have hb := bit_ne_zero cap
  rw [UInt8.and_assoc]
  cases and_bit b cap with
  | inl h => simp [h]
  | inr h => simp [h, hb]

theorem and_not_bit (a : UInt8) (cap cap' : Cap) :
    (a &&& ~~~cap.bit) &&& cap'.bit = if cap = cap' then 0 else a &&& cap'.bit := by
  have h : ~~~cap.bit &&& cap'.bit = if cap = cap' then 0 else cap'.bit := by
    cases cap <;> cases cap' <;> decide
  rw [UInt8.and_assoc, h]
  split
  · exact UInt8.and_zero
  · rfl

@[simp] theorem has_deny (c : CapSet) (cap cap' : Cap) :
    (c.deny cap).has cap' = (cap != cap' && c.has cap') := by
  have hb : (c.deny cap).bits = c.bits &&& ~~~cap.bit := by cases cap <;> rfl
  rw [has, hb, and_not_bit]
  by_cases h : cap = cap' <;> simp [h, has]

@[simp] theorem has_setFsScope (c : CapSet) (s : FsScope) (cap : Cap) :
    (c.setFsScope s).has cap = (Cap.fs != cap && c.has cap) := by
  rw [has, setFsScope, and_not_bit]
  by_cases h : Cap.fs = cap <;> simp [h, has]

@[simp] theorem has_setNetScope (c : CapSet) (s : NetScope) (cap : Cap) :
    (c.setNetScope s).has cap = (Cap.net != cap && c.has cap) := by
  rw [has, setNetScope, and_not_bit]
  by_cases h : Cap.net = cap <;> simp [h, has]

theorem merge_not_full (h : merge f fa sa fb sb = some s) : (fa && fb) = false := by
  cases fa <;> cases fb <;> first | rfl | cases h

theorem ofClass_merge (f : δ → δ → δ) (fa sa fb sb) :
    Hold.ofClass (fa && fb) (merge f fa sa fb sb) =
      (Hold.ofClass fa sa).meet f (Hold.ofClass fb sb) := by
  cases fa <;> cases fb <;> cases sa <;> cases sb <;> rfl

theorem has_restrictWith (a b : CapSet) (cap : Cap) :
    (a.restrictWith b).has cap = (a.has cap && b.has cap) := by
  have hand : (⟨a.bits &&& b.bits, none, none⟩ : CapSet).has cap = (a.has cap && b.has cap) := by
    rw [Bool.eq_iff_iff]
    simpa [has] using and_and_bit a.bits b.bits cap
  have hfs (s) (h : mergeFs a b = some s) : Cap.fs = cap → (a.has cap && b.has cap) = false :=
    fun hc => hc ▸ merge_not_full h
  have hnet (s) (h : mergeNet a b = some s) : Cap.net = cap → (a.has cap && b.has cap) = false :=
    fun hc => hc ▸ merge_not_full h
  rw [restrictWith]
  split <;> split <;> simp_all <;> grind

theorem fsScope_restrictWith (a b : CapSet) : (a.restrictWith b).fsScope = mergeFs a b := by
  rw [restrictWith]
  split <;> split <;> simp_all [setFsScope, setNetScope]

theorem netScope_restrictWith (a b : CapSet) : (a.restrictWith b).netScope = mergeNet a b := by
  rw [restrictWith]
  split <;> split <;> simp_all [setFsScope, setNetScope]

theorem fsHold_restrictWith (a b : CapSet) :
    (a.restrictWith b).fsHold = a.fsHold.meet stricterFsDeny b.fsHold := by
  rw [fsHold, has_restrictWith, fsScope_restrictWith]
  exact ofClass_merge ..

theorem netHold_restrictWith (a b : CapSet) :
    (a.restrictWith b).netHold = a.netHold.meet stricterNetDeny b.netHold := by
  rw [netHold, has_restrictWith, netScope_restrictWith]
  exact ofClass_merge ..

theorem restrictWith_isMeet : IsMeet restrictWith where
  left {a b} := by
    refine ⟨?_, ?_, fun cap => ?_⟩
    · rw [fsHold_restrictWith]
      exact Hold.meet_left (by decide) ..
    · rw [netHold_restrictWith]
      exact Hold.meet_left (by decide) ..
    · rw [has_restrictWith]
      exact fun h => (Bool.and_eq_true_iff.mp h).1
  right {a b} := by
    refine ⟨?_, ?_, fun cap => ?_⟩
    · rw [fsHold_restrictWith]
      exact Hold.meet_right (by decide) ..
    · rw [netHold_restrictWith]
      exact Hold.meet_right (by decide) ..
    · rw [has_restrictWith]
      exact fun h => (Bool.and_eq_true_iff.mp h).2
  greatest {c a b} ha hb := by
    refine ⟨?_, ?_, fun cap hc => ?_⟩
    · rw [fsHold_restrictWith]
      exact Hold.meet_greatest (by decide) ha.fs hb.fs
    · rw [netHold_restrictWith]
      exact Hold.meet_greatest (by decide) ha.net hb.net
    · rw [has_restrictWith]
      exact Bool.and_eq_true_iff.mpr ⟨ha.has cap hc, hb.has cap hc⟩

theorem permits_fs (fs : FileSystem) (c : CapSet) (path : Path) (isWrite : Bool) :
    c.permits fs (.fs path isWrite) =
      match c.fsHold with
      | .granted => true
      | .carved s => s.allowsPath fs path isWrite
      | .denied => false := by
  rw [permits, dispatchDecision, fsHold, Hold.ofClass]
  cases c.has .fs <;> cases c.fsScope <;> rfl

theorem permits_net (fs : FileSystem) (c : CapSet) (host : String) :
    c.permits fs (.net host) =
      match c.netHold with
      | .granted => true
      | .carved s => s.allowsHost host
      | .denied => false := by
  rw [permits, dispatchDecision, netHold, Hold.ofClass]
  cases c.has .net <;> cases c.netScope <;> rfl

theorem dispatchDecision_allow (c : CapSet) (cap : Cap) :
    c.dispatchDecision cap = .allow ↔ c.has cap := by
  unfold dispatchDecision
  split
  · simpa
  · cases cap <;> simp_all <;> split <;> simp

theorem allowsPath_mono (fs : FileSystem) {a b : FsScope} (h : a.Within .all b)
    (ha : a.allowsPath fs path isWrite) : b.allowsPath fs path isWrite := by
  have hany : a.allow.any (fs.pathHasPrefix path ·) → b.allow.any (fs.pathHasPrefix path ·) := by
    simp only [List.any_eq_true]
    exact fun ⟨s, hs, hp⟩ => ⟨s, h.allow s hs, hp⟩
  have hd := h.deny
  unfold Scope.allowsPath at ha ⊢
  cases hda : a.deny <;> cases hdb : b.deny <;> simp_all
  grind

theorem allowsHost_mono {a b : NetScope} (h : a.Within .all b) (ha : a.allowsHost host) :
    b.allowsHost host := by
  have hany : a.allow.any (· == host) → b.allow.any (· == host) := by
    simp only [List.any_eq_true]
    exact fun ⟨s, hs, hp⟩ => ⟨s, h.allow s hs, hp⟩
  have hd := h.deny
  unfold Scope.allowsHost at ha ⊢
  cases hda : a.deny <;> cases hdb : b.deny <;> simp_all
  grind

theorem permitted_mono (fs : FileSystem) : Monotone (permitted fs) := by
  intro c d h x hx
  simp only [permitted, Set.mem_ofPred_eq] at hx ⊢
  cases x with
  | fs path isWrite =>
    have hfs := h.fs
    rw [permits_fs] at hx ⊢
    cases hc : c.fsHold <;> cases hd : d.fsHold <;> rw [hc, hd] at hfs <;> rw [hc] at hx <;>
      first
        | rfl
        | cases hx; done
        | cases hfs; done
        | exact allowsPath_mono fs hfs hx
  | net host =>
    have hnet := h.net
    rw [permits_net] at hx ⊢
    cases hc : c.netHold <;> cases hd : d.netHold <;> rw [hc, hd] at hnet <;> rw [hc] at hx <;>
      first
        | rfl
        | cases hx; done
        | cases hnet; done
        | exact allowsHost_mono hnet hx
  | process =>
    simp only [permits, dispatchDecision_allow, decide_eq_true_eq] at hx ⊢
    exact h.has _ hx
  | ffi =>
    simp only [permits, dispatchDecision_allow, decide_eq_true_eq] at hx ⊢
    exact h.has _ hx
  | env =>
    simp only [permits, dispatchDecision_allow, decide_eq_true_eq] at hx ⊢
    exact h.has _ hx

inductive Op
  | deny (cap : Cap)
  | denyAllDangerous
  | setFsScope (scope : FsScope)
  | setNetScope (scope : NetScope)
  | restrictWith (other : CapSet)

def apply (c : CapSet) : Op → CapSet
  | .deny cap => c.deny cap
  | .denyAllDangerous => c.denyAllDangerous
  | .setFsScope scope => c.setFsScope scope
  | .setNetScope scope => c.setNetScope scope
  | .restrictWith other => c.restrictWith other

def machine : Machine CapSet Op Unit := ⟨fun c op => some ((), c.apply op)⟩

def Narrows (fs : FileSystem) (c : CapSet) (op : Op) : Prop :=
  (c.apply op).permitted fs ⊆ c.permitted fs

/-- A carve-out may only be installed where each entry of its allow-list, and what its mode
leaves open, is permitted already. -/
def Subtracts (fs : FileSystem) (c : CapSet) : Op → Prop
  | .setFsScope scope =>
    (∀ p ∈ scope.allow, c.permits fs (.fs (.new p) true)) ∧
      (scope.deny = .write → ∀ path, c.permits fs (.fs path false))
  | .setNetScope scope =>
    (∀ h ∈ scope.allow, c.permits fs (.net h)) ∧
      (scope.deny = .external → ∀ h, hostIsLoopbackOrPrivate h → c.permits fs (.net h))
  | _ => True

theorem fsHold_deny (c : CapSet) (cap : Cap) :
    (c.deny cap).fsHold = if cap = .fs then .denied else c.fsHold := by
  rw [fsHold, has_deny]
  cases cap <;> rfl

theorem netHold_deny (c : CapSet) (cap : Cap) :
    (c.deny cap).netHold = if cap = .net then .denied else c.netHold := by
  rw [netHold, has_deny]
  cases cap <;> rfl

theorem deny_le (c : CapSet) (cap : Cap) : c.deny cap ≤ c := by
  refine ⟨?_, ?_, fun cap' h => ?_⟩
  · rw [fsHold_deny]
    split
    · trivial
    · exact .refl _ _
  · rw [netHold_deny]
    split
    · trivial
    · exact .refl _ _
  · rw [has_deny] at h
    exact (Bool.and_eq_true_iff.mp h).2

theorem denyAllDangerous_le (c : CapSet) : c.denyAllDangerous ≤ c := by
  have hfold (caps : List Cap) (c : CapSet) : caps.foldl deny c ≤ c := by
    induction caps generalizing c with
    | nil => exact le_rfl
    | cons cap caps ih => exact (ih _).trans (deny_le c cap)
  exact hfold Cap.all c

theorem permits_setFsScope (fs : FileSystem) (c : CapSet) (scope : FsScope) (x : Access) :
    (c.setFsScope scope).permits fs x =
      match x with
      | .fs path isWrite => scope.allowsPath fs path isWrite
      | x => c.permits fs x := by
  cases x with
  | fs path isWrite =>
    rw [permits_fs, fsHold, has_setFsScope]
    rfl
  | net host =>
    simp only [permits_net, netHold, has_setFsScope]
    rfl
  | process => simp [permits, dispatchDecision_allow]
  | ffi => simp [permits, dispatchDecision_allow]
  | env => simp [permits, dispatchDecision_allow]

theorem permits_setNetScope (fs : FileSystem) (c : CapSet) (scope : NetScope) (x : Access) :
    (c.setNetScope scope).permits fs x =
      match x with
      | .net host => scope.allowsHost host
      | x => c.permits fs x := by
  cases x with
  | fs path isWrite =>
    simp only [permits_fs, fsHold, has_setNetScope]
    rfl
  | net host =>
    rw [permits_net, netHold, has_setNetScope]
    rfl
  | process => simp [permits, dispatchDecision_allow]
  | ffi => simp [permits, dispatchDecision_allow]
  | env => simp [permits, dispatchDecision_allow]

theorem allowsPath_of_mem (fs : FileSystem) {s : FsScope} (h : p ∈ s.allow) :
    s.allowsPath fs (.new p) true := by
  have hany : s.allow.any (fs.pathHasPrefix (.new p) ·) := by
    simp only [List.any_eq_true]
    exact ⟨p, h, by simp [FileSystem.pathHasPrefix, Path.startsWith]⟩
  unfold Scope.allowsPath
  cases s.deny <;> simp [hany]

theorem allowsPath_under (fs : FileSystem) {s : FsScope} (h : s.allowsPath fs (.new p) true)
    (hp : fs.pathHasPrefix path p) : s.allowsPath fs path isWrite := by
  have hany : s.allow.any (fs.pathHasPrefix path ·) := by
    have h' : s.allow.any (fs.pathHasPrefix (.new p) ·) := by
      unfold Scope.allowsPath at h
      cases hd : s.deny <;> simpa [hd] using h
    simp only [List.any_eq_true] at h' ⊢
    obtain ⟨q, hq, hpq⟩ := h'
    refine ⟨q, hq, ?_⟩
    simp only [FileSystem.pathHasPrefix, Path.startsWith, List.isPrefixOf_iff_prefix] at hp hpq ⊢
    exact hpq.trans hp
  unfold Scope.allowsPath
  cases s.deny <;> simp [hany]

theorem permits_under (fs : FileSystem) {c : CapSet} (h : c.permits fs (.fs (.new p) true))
    (hp : fs.pathHasPrefix path p) : c.permits fs (.fs path isWrite) := by
  rw [permits_fs] at h ⊢
  cases hc : c.fsHold with
  | granted => rfl
  | carved s =>
    rw [hc] at h
    exact allowsPath_under fs h hp
  | denied =>
    rw [hc] at h
    cases h

theorem setFsScope_narrows (fs : FileSystem) (c : CapSet) (scope : FsScope) :
    Narrows fs c (.setFsScope scope) ↔ Subtracts fs c (.setFsScope scope) := by
  constructor
  · refine fun h => ⟨fun p hp => ?_, fun hd path => ?_⟩
    · exact @h (.fs (.new p) true) ((permits_setFsScope ..).trans (allowsPath_of_mem fs hp))
    · exact @h (.fs path false) ((permits_setFsScope ..).trans (by simp [Scope.allowsPath, hd]))
  · intro ⟨hallow, hread⟩ x hx
    have hx' := (permits_setFsScope fs c scope x).symm.trans hx
    cases x with
    | fs path isWrite =>
      have hunder : scope.allow.any (fs.pathHasPrefix path ·) →
        c.permits fs (.fs path isWrite) := by
        simp only [List.any_eq_true]
        exact fun ⟨p, hp, hpre⟩ => permits_under fs (hallow p hp) hpre
      simp only [Scope.allowsPath] at hx'
      cases hd : scope.deny with
      | all =>
        rw [hd] at hx'
        exact hunder hx'
      | write =>
        rw [hd] at hx'
        cases isWrite with
        | false => exact hread hd path
        | true => exact hunder hx'
    | net host => exact hx'
    | process => exact hx'
    | ffi => exact hx'
    | env => exact hx'

theorem setNetScope_narrows (fs : FileSystem) (c : CapSet) (scope : NetScope) :
    Narrows fs c (.setNetScope scope) ↔ Subtracts fs c (.setNetScope scope) := by
  constructor
  · refine fun h => ⟨fun host hm => ?_, fun hd host hl => ?_⟩
    · exact @h (.net host) ((permits_setNetScope ..).trans (by simp [Scope.allowsHost, hm]))
    · exact @h (.net host) ((permits_setNetScope ..).trans (by simp [Scope.allowsHost, hd, hl]))
  · intro ⟨hallow, hopen⟩ x hx
    have hx' := (permits_setNetScope fs c scope x).symm.trans hx
    cases x with
    | net host =>
      cases Bool.or_eq_true_iff.mp hx' with
      | inl hm => exact hallow host (by simpa using hm)
      | inr hm =>
        cases hd : scope.deny with
        | all =>
          rw [hd] at hm
          cases hm
        | external =>
          rw [hd] at hm
          exact hopen hd host hm
    | fs path isWrite => exact hx'
    | process => exact hx'
    | ffi => exact hx'
    | env => exact hx'

theorem narrows_iff (fs : FileSystem) (c : CapSet) (op : Op) :
    Narrows fs c op ↔ Subtracts fs c op := by
  cases op with
  | deny cap => exact iff_of_true (permitted_mono fs (deny_le c cap)) trivial
  | denyAllDangerous => exact iff_of_true (permitted_mono fs (denyAllDangerous_le c)) trivial
  | setFsScope scope => exact setFsScope_narrows fs c scope
  | setNetScope scope => exact setNetScope_narrows fs c scope
  | restrictWith other => exact iff_of_true (permitted_mono fs restrictWith_isMeet.left) trivial

/-- A run narrows at every step exactly when every carve-out it installs subtracts from the
set it is installed on; and restriction is a meet on permitted sets. -/
theorem authority_narrows (fs : FileSystem) :
    (∀ c ops, machine.Along (Narrows fs) c ops ↔ machine.Along (Subtracts fs) c ops) ∧
    (∀ a b : CapSet, (a.restrictWith b).permitted fs ⊆ a.permitted fs ∩ b.permitted fs) ∧
    (∀ a b : CapSet, (a.restrictWith b).permitted fs = (b.restrictWith a).permitted fs) ∧
    (∀ a b c : CapSet, ((a.restrictWith b).restrictWith c).permitted fs =
      (a.restrictWith (b.restrictWith c)).permitted fs) ∧
    ∀ a : CapSet, (a.restrictWith a).permitted fs = a.permitted fs := by
  have hm := restrictWith_isMeet
  refine ⟨fun c ops => machine.along_congr (narrows_iff fs), fun a b => ?_, fun a b => ?_,
    fun a b c => ?_, fun a => ?_⟩
  · exact Set.subset_inter (permitted_mono fs hm.left) (permitted_mono fs hm.right)
  · exact seen_eq (permitted_mono fs) (hm.comm a b)
  · exact seen_eq (permitted_mono fs) (hm.assoc a b c)
  · exact seen_eq (permitted_mono fs) (hm.self a)

/-- Every path is its own canonical form. -/
def plainFiles : FileSystem := ⟨some, fun _ => true⟩

/-- Network access is dropped, then a carve-out that denies external hosts opens the local ones. -/
theorem carveOut_reopens :
    ¬machine.Along (Narrows plainFiles) allGranted
      [.deny .net, .setNetScope ⟨.external, []⟩] := by
  intro ⟨_, h⟩
  have hlocal := (setNetScope_narrows ..).mp (h () _ rfl).1
  have hopen := hlocal.2 rfl "localhost" (by simp [hostIsLoopbackOrPrivate])
  rw [permits_net] at hopen
  exact absurd hopen (by decide)

end CapSet

end AScript.Stdlib
