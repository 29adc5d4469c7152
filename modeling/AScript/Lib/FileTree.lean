import AScript.Lib.Lexical
import Mathlib.Data.List.Induction

namespace AScript.Lib

inductive FileNode (α : Type)
  | dir
  | file (data : List UInt8) (mode : Nat)
  | link (absolute : Bool) (target : List (Seg α))
  deriving DecidableEq

/-- What stands in a tree stands in a directory. -/
structure FileTree (α : Type) where
  node : List α → Option (FileNode α)
  root : node [] = some .dir
  closed : node (p ++ [n]) ≠ none → node p = some .dir

inductive OsError
  | notFound
  | other
  deriving DecidableEq

namespace FileTree

variable {α : Type}

def resolve (t : FileTree α) (followLast : Bool) :
    Nat → List α → List (Seg α) → Except OsError (List α)
  | 0, _, _ => .error .other
  | _ + 1, cur, [] => .ok cur
  | limit + 1, cur, .here :: rest => t.resolve followLast limit cur rest
  | limit + 1, cur, .up :: rest => t.resolve followLast limit cur.dropLast rest
  | limit + 1, cur, .name n :: rest =>
    match t.node (cur ++ [n]) with
    | some .dir => t.resolve followLast limit (cur ++ [n]) rest
    | some (.file ..) => if rest.isEmpty then .ok (cur ++ [n]) else .error .other
    | some (.link absolute target) =>
      if rest.isEmpty ∧ ¬ followLast then .ok (cur ++ [n])
      else t.resolve followLast limit (if absolute then [] else cur) (target ++ rest)
    | none => if rest.isEmpty then .ok (cur ++ [n]) else .error .notFound

def IsLink (t : FileTree α) (p : List α) : Prop :=
  ∃ absolute target, t.node p = some (.link absolute target)

def Clear (t : FileTree α) (p : List α) : Prop := ∀ q, q <+: p → q ≠ [] → ¬ t.IsLink q

theorem Clear.append {t : FileTree α} (h : t.Clear p) (hn : ¬ t.IsLink (p ++ [n])) :
    t.Clear (p ++ [n]) := by
  intro q hq hne
  obtain hq | rfl := List.prefix_concat_iff.mp hq |>.symm
  · exact h q hq hne
  · exact hn

theorem Clear.of_prefix {t : FileTree α} (h : t.Clear p) (hq : q <+: p) : t.Clear q :=
  fun _ hr hne => h _ (hr.trans hq) hne

theorem resolve_names {t : FileTree α} : ∀ (limit : Nat) (cur names : List α),
    t.Clear (cur ++ names).dropLast → (followLast = true → ¬ t.IsLink (cur ++ names)) →
    t.resolve followLast limit cur (names.map .name) = .ok q → q = cur ++ names
  | limit + 1, cur, [], _, _, h => by
    cases h
    exact (List.append_nil _).symm
  | limit + 1, cur, n :: names, hclear, hleaf, h => by
    have happ : cur ++ n :: names = cur ++ [n] ++ names := by simp
    rw [happ] at hclear hleaf ⊢
    have hdone : ∀ e : OsError, (if (names.map Seg.name).isEmpty then Except.ok (cur ++ [n])
        else .error e) = .ok q → q = cur ++ [n] ++ names := by
      cases names with
      | nil =>
        rintro e ⟨⟩
        exact (List.append_nil _).symm
      | cons m names => exact fun e h => nomatch h
    rw [List.map_cons, resolve] at h
    split at h
    · exact resolve_names limit (cur ++ [n]) names hclear hleaf h
    · exact hdone _ h
    next absolute target hnode =>
      have hlink : t.IsLink (cur ++ [n]) := ⟨absolute, target, hnode⟩
      cases names with
      | nil =>
        rw [List.append_nil] at hleaf
        cases followLast with
        | true => exact absurd hlink (hleaf rfl)
        | false =>
          cases h
          exact (List.append_nil _).symm
      | cons m names =>
        refine absurd hlink (hclear _ ?_ (by simp))
        rw [List.dropLast_append_of_ne_nil (by simp)]
        exact List.prefix_append _ _
    · exact hdone _ h

theorem resolve_nofollow {t : FileTree α} : ∀ (limit : Nat) (cur names : List α),
    t.Clear (cur ++ names).dropLast → t.resolve true limit cur (names.map .name) = .ok q →
    t.resolve false limit cur (names.map .name) = .ok (cur ++ names)
  | limit + 1, cur, [], _, _ => by
    rw [List.append_nil]
    rfl
  | limit + 1, cur, n :: names, hclear, h => by
    have happ : cur ++ n :: names = cur ++ [n] ++ names := by simp
    rw [happ] at hclear ⊢
    rw [List.map_cons, resolve] at h ⊢
    split at h
    · exact resolve_nofollow limit (cur ++ [n]) names hclear h
    · cases names with
      | nil => simp
      | cons m names => exact nomatch h
    next absolute target hnode =>
      cases names with
      | nil => simp
      | cons m names =>
        refine absurd ⟨absolute, target, hnode⟩ (hclear (cur ++ [n]) ?_ (by simp))
        rw [List.dropLast_append_of_ne_nil (by simp)]
        exact List.prefix_append _ _
    · cases names with
      | nil => simp
      | cons m names => exact nomatch h

theorem ancestors (t : FileTree α) : ∀ (rest p : List α), t.node (p ++ rest) ≠ none → rest ≠ [] →
    t.node p = some .dir := by
  intro rest
  induction rest using List.reverseRecOn with
  | nil => exact fun p _ h => absurd rfl h
  | append_singleton rest n ih =>
    intro p h _
    rw [← List.append_assoc] at h
    have hparent := t.closed h
    by_cases hrest : rest = []
    · rwa [hrest, List.append_nil] at hparent
    · exact ih p (by rw [hparent]; nofun) hrest

theorem parent_dir (t : FileTree α) (h : t.node cur = some .dir) :
    t.node cur.dropLast = some .dir := by
  cases cur using List.reverseRecOn with
  | nil => exact h
  | append_singleton cur n =>
    rw [List.dropLast_concat]
    exact t.closed (by rw [h]; nofun)

theorem resolve_not_link {t : FileTree α} : ∀ (limit : Nat) (cur : List α) (segs : List (Seg α)),
    t.node cur = some .dir → t.resolve true limit cur segs = .ok q → ¬ t.IsLink q
  | limit + 1, cur, [], hcur, h => by
    cases h
    rintro ⟨_, _, hlink⟩
    cases hcur.symm.trans hlink
  | limit + 1, cur, .here :: rest, hcur, h => resolve_not_link limit cur rest hcur h
  | limit + 1, cur, .up :: rest, hcur, h =>
    resolve_not_link limit cur.dropLast rest (t.parent_dir hcur) h
  | limit + 1, cur, .name n :: rest, hcur, h => by
    rw [resolve] at h
    split at h
    next hnode => exact resolve_not_link limit _ rest hnode h
    next hnode =>
      split at h
      · cases h
        rintro ⟨_, _, hlink⟩
        cases hnode.symm.trans hlink
      · cases h
    next absolute target _ =>
      rw [if_neg (by simp)] at h
      refine resolve_not_link limit _ _ ?_ h
      cases absolute
      · exact hcur
      · exact t.root
    next hnode =>
      split at h
      · cases h
        rintro ⟨_, _, hlink⟩
        cases hnode.symm.trans hlink
      · cases h

variable [DecidableEq α]

def Free (t : FileTree α) (q : List α) : Prop :=
  q ≠ [] ∧ t.node q.dropLast = some .dir ∧ t.node q ≠ some .dir

instance (t : FileTree α) (q : List α) : Decidable (t.Free q) :=
  inferInstanceAs (Decidable (_ ∧ _ ∧ _))

def set (t : FileTree α) (q : List α) (v : Option (FileNode α)) (h : t.Free q) : FileTree α where
  node p := if p = q then v else t.node p
  root := by
    rw [if_neg (Ne.symm h.1)]
    exact t.root
  closed {p m} hm := by
    by_cases hp : p ++ [m] = q
    · subst hp
      rw [if_neg (by simp)]
      simpa using h.2.1
    · rw [if_neg hp] at hm
      have hclosed := t.closed hm
      rwa [if_neg]
      rintro rfl
      exact h.2.2 hclosed

def put (t : FileTree α) (q : List α) (v : Option (FileNode α)) : Option (FileTree α) :=
  if h : t.Free q then some (t.set q v h) else none

theorem put_eq_some {t t' : FileTree α} (h : t.put q v = some t') :
    t.Free q ∧ ∀ p, t'.node p = if p = q then v else t.node p := by
  unfold put at h
  split at h
  next hfree =>
    cases h
    exact ⟨hfree, fun _ => rfl⟩
  · cases h

variable (limit : Nat)

def lookup (t : FileTree α) (followLast : Bool) (path : List (Seg α)) :
    Except OsError (List α × FileNode α) := do
  let q ← t.resolve followLast limit [] path
  match t.node q with
  | some v => .ok (q, v)
  | none => .error .notFound

def change (t : FileTree α) (followLast : Bool) (path : List (Seg α))
    (f : Option (FileNode α) → Option (Option (FileNode α))) :
    Except OsError (List α × FileTree α) := do
  let q ← t.resolve followLast limit [] path
  match (f (t.node q)).bind (t.put q) with
  | some t => .ok (q, t)
  | none => .error .other

def mkdir (t : FileTree α) (path : List (Seg α)) : Except OsError (List α × FileTree α) :=
  t.change limit false path fun
    | none => some (some .dir)
    | some _ => none

def write (t : FileTree α) (path : List (Seg α)) (data : List UInt8) (newMode : Nat) :
    Except OsError (List α × FileTree α) :=
  t.change limit true path fun
    | some (.file _ mode) => some (some (.file data mode))
    | _ => some (some (.file data newMode))

def chmod (t : FileTree α) (path : List (Seg α)) (mode : Nat) :
    Except OsError (List α × FileTree α) :=
  t.change limit true path fun
    | some (.file data _) => some (some (.file data mode))
    | _ => none

def remove (t : FileTree α) (path : List (Seg α)) : Except OsError (List α × FileTree α) :=
  t.change limit false path fun
    | some _ => some none
    | none => none

structure Touches (t : FileTree α) (q : List α) (t' : FileTree α) : Prop where
  elsewhere : ∀ p, p ≠ q → t'.node p = t.node p
  dirs : ∀ p, t.node p = some .dir → t'.node p = some .dir
  links : ∀ p absolute target, t'.node p = some (.link absolute target) →
    t.node p = some (.link absolute target)
  inDir : q ≠ [] ∧ t.node q.dropLast = some .dir

variable {limit}

theorem change_touches {t t' : FileTree α} (h : t.change limit followLast path f = .ok (q, t'))
    (hf : ∀ v absolute target, f v ≠ some (some (.link absolute target))) :
    t.resolve followLast limit [] path = .ok q ∧ t.Touches q t' := by
  unfold change at h
  cases hr : t.resolve followLast limit [] path with
  | error e =>
    rw [hr] at h
    cases h
  | ok r =>
    rw [hr] at h
    simp only [bind, Except.bind] at h
    split at h
    next hput =>
      cases h
      obtain ⟨v, hv, hput⟩ := Option.bind_eq_some_iff.mp hput
      obtain ⟨hfree, hnode⟩ := put_eq_some hput
      refine ⟨rfl, fun p hp => by rw [hnode, if_neg hp], fun p hp => ?_,
        fun p absolute target hp => ?_,
        hfree.1, hfree.2.1⟩
      · rw [hnode, if_neg]
        · exact hp
        · rintro rfl
          exact hfree.2.2 hp
      · rw [hnode] at hp
        split at hp
        · exact absurd (hp ▸ hv) (hf _ absolute target)
        · exact hp
    · cases h

theorem mkdir_touches {t t' : FileTree α} (h : t.mkdir limit path = .ok (q, t')) :
    t.resolve false limit [] path = .ok q ∧ t.Touches q t' :=
  change_touches h fun v _ _ => by cases v <;> nofun

theorem write_touches {t t' : FileTree α} (h : t.write limit path data mode = .ok (q, t')) :
    t.resolve true limit [] path = .ok q ∧ t.Touches q t' :=
  change_touches h fun v _ _ => by split <;> nofun

theorem chmod_touches {t t' : FileTree α} (h : t.chmod limit path mode = .ok (q, t')) :
    t.resolve true limit [] path = .ok q ∧ t.Touches q t' :=
  change_touches h fun v _ _ => by split <;> nofun

theorem remove_touches {t t' : FileTree α} (h : t.remove limit path = .ok (q, t')) :
    t.resolve false limit [] path = .ok q ∧ t.Touches q t' :=
  change_touches h fun v _ _ => by cases v <;> nofun

end FileTree

end AScript.Lib
