import Mathlib.Data.List.Induction
import Mathlib.Logic.Relation

namespace AScript.Lib

/-- A word of a path: stay, one directory up, or down into a name. -/
inductive Seg (α : Type)
  | here
  | up
  | name (a : α)
  deriving DecidableEq, Repr

def segOf (seg : List Char) : Seg (List Char) :=
  if seg = [] ∨ seg = ['.'] then .here else if seg = ['.', '.'] then .up else .name seg

def follow (dir : List α) : Seg α → List α
  | .here => dir
  | .up => dir.dropLast
  | .name a => dir ++ [a]

structure Spot (α : Type) where
  up : Nat
  down : List α
  deriving DecidableEq, Repr

namespace Spot

def start : Spot α := ⟨0, []⟩

def step (s : Spot α) : Seg α → Spot α
  | .here => s
  | .up => if s.down.isEmpty then ⟨s.up + 1, []⟩ else ⟨s.up, s.down.dropLast⟩
  | .name a => ⟨s.up, s.down ++ [a]⟩

def walk (s : Spot α) (segs : List (Seg α)) : Spot α := segs.foldl step s

def place (dir : List α) (s : Spot α) : List α := dir.take (dir.length - s.up) ++ s.down

/-- The directories of `dir` between `hi` and `lo` levels up. -/
def between (dir : List α) (hi lo : Nat) : List α :=
  (dir.take (dir.length - lo)).drop (dir.length - hi)

theorem place_start (dir : List α) : place dir start = dir := by
  simp [place, start]

theorem place_step (dir : List α) (s : Spot α) (g : Seg α) :
    place dir (s.step g) = follow (place dir s) g := by
  cases g with
  | here => rfl
  | up =>
    by_cases h : s.down = []
    · have hlen : dir.length - s.up ≤ dir.length := Nat.sub_le ..
      simp only [step, h, List.isEmpty_nil, if_true, place, follow, List.append_nil,
        List.dropLast_eq_take, List.length_take, List.take_take, Nat.min_eq_left hlen]
      congr 1
      omega
    · rw [step, if_neg (by simpa using h), place, follow, place, List.dropLast_append_of_ne_nil h]
  | name a => simp [step, place, follow]

theorem place_walk (dir : List α) (s : Spot α) (segs : List (Seg α)) :
    place dir (s.walk segs) = segs.foldl follow (place dir s) := by
  induction segs generalizing s with
  | nil => rfl
  | cons g segs ih =>
    exact (ih (s.step g)).trans (congrArg (segs.foldl follow) (place_step dir s g))

theorem take_eq_between (dir : List α) (h : lo ≤ hi) :
    dir.take (dir.length - lo) = dir.take (dir.length - hi) ++ between dir hi lo := by
  have hle : min (dir.length - hi) (dir.length - lo) = dir.length - hi := by omega
  have hcut := List.take_append_drop (dir.length - hi) (dir.take (dir.length - lo))
  rw [List.take_take, hle] at hcut
  exact hcut.symm

theorem place_eq_iff (dir : List α) {s t : Spot α} (h : s.up ≤ t.up) :
    place dir s = place dir t ↔ t.down = between dir t.up s.up ++ s.down := by
  rw [place, place, take_eq_between dir h, List.append_assoc, List.append_cancel_left_eq]
  exact eq_comm

@[simp] theorem between_self (dir : List α) (n : Nat) : between dir n n = [] := by
  simp [between]

end Spot

def stepDown (dir : List α) : Seg α → Option (List α)
  | .here => some dir
  | .up => if dir.isEmpty then none else some dir.dropLast
  | .name a => some (dir ++ [a])

def descend (dir : List α) (segs : List (Seg α)) : Option (List α) := segs.foldlM stepDown dir

/-- How far below its start a walk ends. -/
def depth : List (Seg α) → Int
  | [] => 0
  | .here :: segs => depth segs
  | .up :: segs => depth segs - 1
  | .name _ :: segs => depth segs + 1

inductive Cancels : List (Seg α) → List (Seg α) → Prop
  | here : Cancels (segs ++ .here :: rest) (segs ++ rest)
  | back : Cancels (segs ++ .name a :: .up :: rest) (segs ++ rest)

/-- The names that are left when nothing cancels any more. -/
def NormalForm (segs : List (Seg α)) (names : List α) : Prop :=
  Relation.ReflTransGen Cancels segs (names.map .name)

theorem descend_cons (dir : List α) (g : Seg α) (segs : List (Seg α)) :
    descend dir (g :: segs) = (stepDown dir g).bind (descend · segs) := rfl

theorem descend_append (dir : List α) (segs rest : List (Seg α)) :
    descend dir (segs ++ rest) = (descend dir segs).bind (descend · rest) :=
  List.foldlM_append

theorem descend_names : ∀ (names dir : List α), descend dir (names.map .name) = some (dir ++ names)
  | [], dir => by rw [List.append_nil]; rfl
  | n :: names, dir => by
    rw [List.map_cons, descend_cons, stepDown, Option.bind_some, descend_names names,
      List.append_assoc, List.singleton_append]

theorem Cancels.descend_eq {segs segs' : List (Seg α)} (h : Cancels segs segs') (dir : List α) :
    descend dir segs = descend dir segs' := by
  cases h with
  | here => rw [descend_append, descend_append]; rfl
  | @back segs a rest =>
    rw [descend_append, descend_append]
    congr 1
    funext dir
    simp [descend_cons, stepDown]

theorem NormalForm.descend_eq {segs : List (Seg α)} (h : NormalForm segs names) :
    descend [] segs = some names := by
  have hall : ∀ {s s' : List (Seg α)}, Relation.ReflTransGen Cancels s s' →
      descend [] s = descend [] s' := by
    intro s s' h
    induction h with
    | refl => rfl
    | tail _ hstep ih => exact ih.trans (hstep.descend_eq [])
  rw [hall h, descend_names, List.nil_append]

theorem cancels_of_descend : ∀ (segs : List (Seg α)) (dir : List α),
    descend dir segs = some names →
    Relation.ReflTransGen Cancels (dir.map .name ++ segs) (names.map .name)
  | [], dir, h => by
    cases h
    rw [List.append_nil]
  | .here :: segs, dir, h => .head .here (cancels_of_descend segs dir h)
  | .up :: segs, dir, h => by
    cases dir using List.reverseRecOn with
    | nil => cases h
    | append_singleton dir a =>
      rw [descend_cons, stepDown, if_neg (by simp), Option.bind_some, List.dropLast_concat] at h
      rw [List.map_append, List.append_assoc]
      exact .head .back (cancels_of_descend segs dir h)
  | .name a :: segs, dir, h => by
    have := cancels_of_descend segs (dir ++ [a]) h
    rwa [List.map_append, List.append_assoc] at this

theorem depth_of_descend : ∀ (segs : List (Seg α)) (dir : List α), (descend dir segs).isSome →
    ∀ p, p <+: segs → 0 ≤ (dir.length : Int) + depth p
  | segs, dir, _, [], _ => by
    rw [depth]
    omega
  | g :: segs, dir, h, g' :: p, hp => by
    obtain ⟨rfl, htail⟩ := List.cons_prefix_cons.mp hp
    rw [descend_cons] at h
    cases g' with
    | here => exact depth_of_descend segs dir h p htail
    | up =>
      by_cases hdir : dir = []
      · subst hdir
        cases h
      · rw [stepDown, if_neg (by simpa using hdir)] at h
        have ih := depth_of_descend segs _ h p htail
        have hlen := List.length_pos_iff.mpr hdir
        rw [List.length_dropLast] at ih
        rw [depth]
        omega
    | name a =>
      have ih := depth_of_descend segs _ h p htail
      rw [List.length_append, List.length_singleton] at ih
      rw [depth]
      omega

theorem descend_iff (segs : List (Seg α)) (names : List α) : descend [] segs = some names ↔
    (∀ p, p <+: segs → 0 ≤ depth p) ∧ NormalForm segs names := by
  constructor
  · intro h
    refine ⟨fun p hp => ?_, cancels_of_descend segs [] h⟩
    have := depth_of_descend segs [] (by rw [h]; rfl) p hp
    simpa using this
  · exact fun h => h.2.descend_eq

end AScript.Lib
