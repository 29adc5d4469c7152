import AScript.Stdlib.Jail

namespace AScript.Stdlib.Extract

open AScript.Lib

def IsFile (t : FileTree Name) (p : Path) : Prop := ∃ data mode, t.node p = some (.file data mode)

def fileOf (root : Path) : Except String Entry → Option (Path × List UInt8)
  | .ok entry =>
    match entry.kind, classifyEntryName entry.name, entry.data with
    | .file, .ok rel, .ok data => some (root ++ rel, data)
    | _, _, _ => none
  | .error _ => none

theorem node_of_chmod {t t' : FileTree Name} (h : t.chmod limit path mode = .ok (q, t')) :
    ∃ data m, t.node q = some (.file data m) ∧
      ∀ p, t'.node p = if p = q then some (.file data mode) else t.node p := by
  unfold FileTree.chmod FileTree.change at h
  cases hr : t.resolve true limit [] path with
  | error e =>
    rw [hr] at h
    cases h
  | ok r =>
    rw [hr] at h
    simp only [bind, Except.bind] at h
    split at h
    next hput =>
      cases h
      obtain ⟨v, hv, hput⟩ := Option.bind_eq_some_iff.mp hput
      obtain ⟨-, hnode⟩ := FileTree.put_eq_some hput
      split at hv
      next hfile =>
        cases hv
        exact ⟨_, _, hfile, hnode⟩
      · cases hv
    · cases h

def Puts (limit : Nat) (t : FileTree Name) (p : Path) (data : List UInt8) (t' : FileTree Name) :
    Prop :=
  ∃ t₁ mode, t.Grows t₁ ∧ (t₁.node p = none ∨ IsFile t₁ p) ∧ (p ≠ [] ∧ p.length ≤ limit) ∧
    ∀ q, t'.node q = if q = p then some (.file data mode) else t₁.node q

structure Wrote (limit : Nat) (start : FileTree Name) (files : List (Path × List UInt8))
    (t : FileTree Name) : Prop where
  last : ∀ earlier p data later, files = earlier ++ (p, data) :: later →
    p ∉ later.map Prod.fst → ∃ mode, t.node p = some (.file data mode)
  place : ∀ p ∈ files.map Prod.fst, (start.node p = none ∨ IsFile start p) ∧
    p ≠ [] ∧ p.length ≤ limit
  kept : ∀ p, p ∉ files.map Prod.fst → start.node p ≠ none → t.node p = start.node p
  fresh : ∀ p, p ∉ files.map Prod.fst → start.node p = none → t.node p = none ∨ t.node p = some .dir

theorem Wrote.refl (limit : Nat) (t : FileTree Name) : Wrote limit t [] t :=
  ⟨fun earlier _ _ _ h => absurd h (by simp), nofun, fun _ _ _ => rfl, fun _ _ h => .inl h⟩

theorem Wrote.grows (h : Wrote limit start files t) (hg : t.Grows t') :
    Wrote limit start files t' := by
  refine ⟨fun earlier p data later hsplit hlater => ?_, h.place, fun p hp hstart => ?_,
    fun p hp hstart => ?_⟩
  · obtain ⟨mode, hnode⟩ := h.last earlier p data later hsplit hlater
    exact ⟨mode, by rw [hg.keeps p (by rw [hnode]; nofun), hnode]⟩
  · have hkept := h.kept p hp hstart
    rw [hg.keeps p (by rwa [hkept]), hkept]
  · obtain hnone | hdir := h.fresh p hp hstart
    · exact hg.new p hnone
    · exact .inr (hg.dir hdir)

section

variable {limit : Nat} {osText : OsError → String} {newMode : Nat} {fault : Nat → Option Nat}

theorem Puts.chmod {d : Disk} (h : Puts limit t path data d.tree) (hclear : d.tree.Clear path)
    (mode : Nat) : Puts limit t path data (d.act path (·.chmod limit · mode)).2.tree := by
  obtain ⟨t₁, m, hg, hwas, hp, hnode⟩ := h
  unfold Disk.act
  split
  next q t' hok =>
    obtain ⟨hresolve, -⟩ := FileTree.chmod_touches hok
    obtain rfl : q = path := FileTree.resolve_names limit [] path
      (hclear.of_prefix (List.dropLast_prefix _)) (fun _ => hclear _ (List.prefix_refl _) hp.1)
      hresolve
    obtain ⟨dt, m', hfile, hnode'⟩ := node_of_chmod hok
    rw [hnode, if_pos rfl] at hfile
    cases hfile
    refine ⟨t₁, mode, hg, hwas, hp, fun p => ?_⟩
    rw [hnode']
    split
    · rfl
    next hne => rw [hnode, if_neg hne]
  next => exact ⟨t₁, m, hg, hwas, hp, hnode⟩

def Outcome (limit : Nat) (root : Path) (entry : Entry) (written : List Path) (t : FileTree Name)
    (run : (Nat → Option Nat) → Except String Unit × List Path × Disk) : Prop :=
  (∃ e d', t.Grows d'.tree ∧ ∀ fault, run fault = (.error e, written, d')) ∨
  (entry.kind ≠ .file ∧ ∃ d', t.Grows d'.tree ∧ ∀ fault, run fault = (.ok (), written, d')) ∨
  ∃ p data, fileOf root (.ok entry) = some (p, data) ∧ Below root p ∧
    (∃ d', Puts limit t p data d'.tree ∧
      ∀ fault, fault written.length = none → run fault = (.ok (), written ++ [p], d')) ∧
    ∀ n, ∃ e d', Puts limit t p (data.take n) d'.tree ∧
      ∀ fault, fault written.length = some n → run fault = (.error e, written, d')

end

end AScript.Stdlib.Extract
