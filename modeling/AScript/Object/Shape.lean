import AScript.Lib.IndexMap

universe u

namespace AScript.Object

open AScript.Lib

def emptyShape : Nat := 0

def slabMaxKeys : Nat := 64

def shapeFanoutMax : Nat := 128

/-- The transition tree of key layouts (`vm/shape.rs`). Shape ids index `keys`; the
edge field says that following `(s, k)` extends the layout of `s` by `k`. -/
structure ShapeRegistry (K : Type u) [DecidableEq K] where
  transitions : IndexMap Nat (IndexMap K Nat)
  keys : List (List K)
  root : keys[0]? = some []
  edge : ∀ {s inner k c}, transitions.get s = some inner → inner.get k = some c →
    ∃ ks, keys[s]? = some ks ∧ keys[c]? = some (ks ++ [k])

namespace ShapeRegistry

variable {K : Type u} [DecidableEq K]

def new : ShapeRegistry K where
  transitions := .empty
  keys := [[]]
  root := rfl
  edge := by
    intro s inner k c h
    cases h

def probe (reg : ShapeRegistry K) (shape : Nat) (key : K) : Option Nat :=
  (reg.transitions.get shape).bind (·.get key)

def keysOf (reg : ShapeRegistry K) (shape : Nat) : Option (List K) := reg.keys[shape]?

def fanOut (reg : ShapeRegistry K) (shape : Nat) : Nat :=
  (reg.transitions.get shape).elim 0 IndexMap.len

theorem probe_sound {reg : ShapeRegistry K} (h : reg.probe s k = some c) :
    ∃ ks, reg.keysOf s = some ks ∧ reg.keysOf c = some (ks ++ [k]) := by
  obtain ⟨inner, hi, hc⟩ := Option.bind_eq_some_iff.mp h
  exact reg.edge hi hc

/-- Mint a child of `shape`, whose layout is `ks`, under the next free id. -/
def mint (reg : ShapeRegistry K) (shape : Nat) (key : K) (ks : List K)
    (hs : reg.keysOf shape = some ks) : ShapeRegistry K where
  transitions := reg.transitions.insert shape
    (((reg.transitions.get shape).getD .empty).insert key reg.keys.length)
  keys := reg.keys ++ [ks ++ [key]]
  root := by
    rw [List.getElem?_append_left]
    · exact reg.root
    · exact (List.getElem?_eq_some_iff.mp reg.root).1
  edge := by
    intro s inner k c hi hc
    have old : ∀ {i : Nat} {l : List K}, reg.keys[i]? = some l →
      (reg.keys ++ [ks ++ [key]])[i]? = some l := by
      intro i l h
      rw [List.getElem?_append_left (List.getElem?_eq_some_iff.mp h).1]
      exact h
    rw [IndexMap.get_insert] at hi
    split at hi
    · rename_i hss
      subst hss
      cases hi
      rw [IndexMap.get_insert] at hc
      split at hc
      · rename_i hkk
        subst hkk
        cases hc
        exact ⟨ks, old hs, by simp⟩
      · cases ht : reg.transitions.get s with
        | none =>
          rw [ht] at hc
          cases hc
        | some inner =>
          rw [ht] at hc
          obtain ⟨l, h₁, h₂⟩ := reg.edge ht hc
          exact ⟨l, old h₁, old h₂⟩
    · obtain ⟨l, h₁, h₂⟩ := reg.edge hi hc
      exact ⟨l, old h₁, old h₂⟩

def addKey (reg : ShapeRegistry K) (shape : Nat) (key : K) :
    Option (Option Nat × ShapeRegistry K) :=
  match reg.probe shape key with
  | some child => some (some child, reg)
  | none =>
    match h : reg.keysOf shape with
    | none => none
    | some ks =>
      if ks.length + 1 > slabMaxKeys then some (none, reg)
      else if reg.fanOut shape ≥ shapeFanoutMax then some (none, reg)
      else some (some reg.keys.length, reg.mint shape key ks h)

def shapeForFrom (reg : ShapeRegistry K) (shape : Nat) :
    List K → Option (Option Nat × ShapeRegistry K)
  | [] => some (some shape, reg)
  | k :: ks =>
    match reg.addKey shape k with
    | none => none
    | some (none, reg') => some (none, reg')
    | some (some child, reg') => reg'.shapeForFrom child ks

def shapeFor (reg : ShapeRegistry K) (ks : List K) : Option (Option Nat × ShapeRegistry K) :=
  reg.shapeForFrom emptyShape ks

def Extends (reg reg' : ShapeRegistry K) : Prop :=
  ∀ s ks, reg.keysOf s = some ks → reg'.keysOf s = some ks

theorem Extends.refl (reg : ShapeRegistry K) : reg.Extends reg := fun _ _ h => h

theorem Extends.trans {a b c : ShapeRegistry K} (h : a.Extends b) (h' : b.Extends c) :
    a.Extends c := fun s ks hs => h' s ks (h s ks hs)

theorem mint_extends (reg : ShapeRegistry K) (h : reg.keysOf s = some ks) :
    reg.Extends (reg.mint s k ks h) := by
  intro s' ks' h'
  change (reg.keys ++ [ks ++ [k]])[s']? = some ks'
  rw [List.getElem?_append_left (List.getElem?_eq_some_iff.mp h').1]
  exact h'

theorem addKey_spec (reg : ShapeRegistry K) (h : reg.keysOf s = some ks) (k : K) :
    ∃ r reg', reg.addKey s k = some (r, reg') ∧ reg.Extends reg' ∧
      ∀ c, r = some c → reg'.keysOf c = some (ks ++ [k]) := by
  unfold addKey
  cases hp : reg.probe s k with
  | some child =>
    obtain ⟨ks', h₁, h₂⟩ := probe_sound hp
    rw [h] at h₁
    cases h₁
    exact ⟨_, _, rfl, .refl _, fun c hc => by cases hc; exact h₂⟩
  | none =>
    simp only
    split
    · rename_i hn
      rw [h] at hn
      cases hn
    · rename_i ks' hs
      have hk : ks = ks' := Option.some.inj (h.symm.trans hs)
      subst hk
      split
      · exact ⟨_, _, rfl, .refl _, fun c hc => by cases hc⟩
      · split
        · exact ⟨_, _, rfl, .refl _, fun c hc => by cases hc⟩
        · refine ⟨_, _, rfl, mint_extends reg hs, fun c hc => ?_⟩
          cases hc
          change (reg.keys ++ [ks ++ [k]])[reg.keys.length]? = _
          simp

theorem shapeForFrom_spec (reg : ShapeRegistry K) (h : reg.keysOf s = some pre) (ks : List K) :
    ∃ r reg', reg.shapeForFrom s ks = some (r, reg') ∧ reg.Extends reg' ∧
      ∀ c, r = some c → reg'.keysOf c = some (pre ++ ks) := by
  induction ks generalizing reg s pre with
  | nil => exact ⟨_, _, rfl, .refl _, fun c hc => by cases hc; simpa using h⟩
  | cons k ks ih =>
    obtain ⟨r, reg₁, h₁, hx, hc⟩ := reg.addKey_spec h k
    cases r with
    | none => exact ⟨none, reg₁, by simp [shapeForFrom, h₁], hx, fun c hc => by cases hc⟩
    | some child =>
      obtain ⟨r, reg₂, h₂, hx₂, hc₂⟩ := ih reg₁ (hc child rfl)
      refine ⟨r, reg₂, by simp [shapeForFrom, h₁, h₂], hx.trans hx₂, fun c hr => ?_⟩
      simpa using hc₂ c hr

theorem shapeFor_spec (reg : ShapeRegistry K) (ks : List K) :
    ∃ r reg', reg.shapeFor ks = some (r, reg') ∧ reg.Extends reg' ∧
      ∀ c, r = some c → reg'.keysOf c = some ks :=
  reg.shapeForFrom_spec reg.root ks

end ShapeRegistry
end AScript.Object
