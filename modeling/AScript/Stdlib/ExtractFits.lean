import AScript.Stdlib.ExtractWrites

namespace AScript.Stdlib.Extract

open AScript.Lib

def kindOf : FileNode Name → EntryKind
  | .dir => .dir
  | .file .. => .file
  | .link .. => .link

def kindIn (t : FileTree Name) (p : Path) : Option EntryKind := (t.node p).map kindOf

def pathsThrough (cur : Path) : List Name → List Path
  | [] => []
  | n :: way => (cur ++ [n]) :: pathsThrough (cur ++ [n]) way

def dirsOf (root : Path) : Except String Entry → List Path
  | .ok entry =>
    match entry.kind, classifyEntryName entry.name, entry.data with
    | .dir, .ok rel, _ => pathsThrough root rel
    | .file, .ok rel, .ok _ => pathsThrough root rel.dropLast
    | _, _, _ => []
  | .error _ => []

def RoomForDir (limit : Nat) (kindAt : Path → Option EntryKind) (p : Path) : Prop :=
  kindAt p = none ∧ p.length ≤ limit ∨ kindAt p = some .dir ∧ p.length < limit

def RoomForFile (limit : Nat) (kindAt : Path → Option EntryKind) (p : Path) : Prop :=
  (kindAt p = none ∨ kindAt p = some .file) ∧ p.length ≤ limit

structure Fits (limit : Nat) (root : Path) (kindAt : Path → Option EntryKind) (entry : Entry) :
    Prop where
  size : entry.declared ≤ maxEntryBytes
  name : ∃ rel, classifyEntryName entry.name = .ok rel
  data : entry.kind = .file → ∃ data, entry.data = .ok data
  base : kindAt root = some .dir
  dirs : ∀ p ∈ dirsOf root (.ok entry), RoomForDir limit kindAt p
  file : ∀ p data, fileOf root (.ok entry) = some (p, data) → RoomForFile limit kindAt p

theorem resolve_eq {t : FileTree Name} : ∀ (limit : Nat) (cur names : Path), names ≠ [] →
    t.node (cur ++ names).dropLast = some .dir →
    (followLast = true → t.IsLink (cur ++ names) → limit < names.length) →
    t.resolve followLast limit cur (names.map .name) =
      if names.length ≤ limit ∧ (t.node (cur ++ names) = some .dir → names.length < limit) then
        .ok (cur ++ names)
      else .error .other
  | 0, cur, n :: names, _, _, _ => by simp [FileTree.resolve]
  | limit + 1, cur, [n], _, _, hleaf => by
    rw [List.map_singleton, FileTree.resolve]
    cases hv : t.node (cur ++ [n]) with
    | none => simp
    | some v =>
      cases v with
      | dir => cases limit <;> simp [FileTree.resolve]
      | file data mode => simp
      | link absolute target =>
        cases followLast with
        | false => simp
        | true => simpa using hleaf rfl ⟨absolute, target, hv⟩
  | limit + 1, cur, n :: m :: names, _, hdir, hleaf => by
    have happ : cur ++ n :: m :: names = cur ++ [n] ++ m :: names := by simp
    rw [happ] at hdir hleaf ⊢
    have hcur : t.node (cur ++ [n]) = some .dir := by
      rw [List.dropLast_append_of_ne_nil (by simp)] at hdir
      by_cases hnames : (m :: names).dropLast = []
      · rwa [hnames, List.append_nil] at hdir
      · exact t.ancestors _ _ (by rw [hdir]; exact Option.some_ne_none _) hnames
    rw [List.map_cons, FileTree.resolve, hcur]
    have hrest := resolve_eq limit (cur ++ [n]) (m :: names) (by simp) hdir fun hf hl => by
      simpa using hleaf hf hl
    simpa using hrest

structure Made (t : FileTree Name) (asked : List Path) (t' : FileTree Name) : Prop where
  dirs : ∀ p ∈ asked, t'.node p = some .dir
  others : ∀ p, p ∉ asked → t'.node p = t.node p

theorem kindIn_none {t : FileTree Name} : kindIn t p = none ↔ t.node p = none := by
  rw [kindIn, Option.map_eq_none_iff]

theorem kindIn_file {t : FileTree Name} : kindIn t p = some .file ↔ IsFile t p := by
  rw [kindIn, IsFile]
  cases t.node p with
  | none => simp
  | some v => cases v <;> simp [kindOf]

/-- A run makes directories of what it is asked for just when each has room. -/
structure Makes (limit : Nat) (t : FileTree Name) (asked : List Path)
    (run : Except String Unit × Disk) : Prop where
  iff : run.1 = .ok () ↔ ∀ p ∈ asked, RoomForDir limit (kindIn t) p
  made : run.1 = .ok () → Made t asked run.2.tree

section Makes

variable {limit : Nat} {t t' : FileTree Name} {d : Disk} {way : List Name} {p : Path}
  {run : Except String Unit × Disk}

theorem Makes.refused (hroom : ¬ RoomForDir limit (kindIn t) p) (hrun : run.1 ≠ .ok ())
    (asked : List Path) : Makes limit t (p :: asked) run :=
  ⟨⟨fun h => absurd h hrun, fun h => absurd (h p List.mem_cons_self) hroom⟩,
    fun h => absurd h hrun⟩

end Makes

theorem write_ok {t : FileTree Name} (hne : p ≠ []) (hdir : t.node p.dropLast = some .dir)
    (h : RoomForFile limit (kindIn t) p) (data : List UInt8) (newMode : Nat) :
    ∃ t' mode, t.write limit (p.map .name) data newMode = .ok (p, t') ∧
      ∀ q, t'.node q = if q = p then some (.file data mode) else t.node q := by
  obtain ⟨hfree, hlen⟩ := h
  rw [kindIn_none, kindIn_file] at hfree
  have hnot : t.node p ≠ some .dir := by
    rcases hfree with h | ⟨dt, m, h⟩ <;> rw [h] <;> nofun
  have hlink : ¬ t.IsLink p := by
    rintro ⟨a, tg, hl⟩
    rcases hfree with h | ⟨dt, m, h⟩ <;> cases h.symm.trans hl
  have hresolve : t.resolve true limit [] (p.map .name) = _ :=
    resolve_eq limit [] p hne hdir fun _ h => absurd h hlink
  rw [List.nil_append, if_pos ⟨hlen, fun h => absurd h hnot⟩] at hresolve
  have hput (v) : t.put p v = some (t.set p v ⟨hne, hdir, hnot⟩) := dif_pos _
  rw [FileTree.write, FileTree.change, hresolve]
  rcases hfree with h | ⟨dt, m, h⟩
  · refine ⟨t.set p (some (.file data newMode)) ⟨hne, hdir, hnot⟩, newMode, ?_, fun _ => rfl⟩
    simp only [bind, Except.bind, h, Option.bind_some, hput]
  · refine ⟨t.set p (some (.file data m)) ⟨hne, hdir, hnot⟩, m, ?_, fun _ => rfl⟩
    simp only [bind, Except.bind, h, Option.bind_some, hput]

section

variable {limit : Nat} {osText : OsError → String} {newMode : Nat} {fault : Nat → Option Nat}
  {d : Disk}

end

end AScript.Stdlib.Extract
