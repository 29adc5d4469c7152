import AScript.Lib.FileTreeGrowth
import AScript.Stdlib.Caps
import AScript.Stdlib.Extract

namespace AScript.Stdlib

open AScript.Lib
open AScript.Stdlib.Extract (Name createDirAll createDirAll_grows)

/-- What the system looks paths up in. -/
structure World where
  tree : FileTree Name
  cwd : List Name
  limit : Nat

namespace World

variable (w : World)

def words (p : Path) : List (Seg Name) :=
  (if p.absolute then [] else w.cwd.map .name) ++ p.parts.map fun part => segOf part.toList

/-- Where the system finds or creates the file; the empty path is none. -/
def place (p : Path) : Except OsError (List Name) :=
  if !p.absolute && p.parts.isEmpty then .error .notFound
  else w.tree.resolve true w.limit [] (w.words p)

def find (p : Path) : Option (List Name) :=
  match w.place p with
  | .ok q => if (w.tree.node q).isSome then some q else none
  | .error _ => none

def parts (q : List Name) : List String := q.map String.ofList

/-- What path checks see of it. -/
def fileSystem : FileSystem where
  canonicalize p := (w.find p).map fun q => ⟨true, parts q⟩
  exists? p := (w.find p).isSome

/-- After the missing directories of a path are created. -/
def createDirs (dir : Path) : World :=
  { w with tree := (createDirAll w.limit w.tree (w.words dir).reverse).2 }

/-- Where a path leads, if it exists or if only names come after what exists; the first of these is
really missing, no link to what is missing. -/
inductive Leads (p : Path) : List Name → Prop
  | found (h : w.find p = some q) : Leads p q
  | missing (hparts : p.parts = above ++ parts (n :: names))
    (hnames : ∀ m ∈ n :: names, segOf m = .name m ∧ m ≠ ['/'])
    (hd : w.tree.resolve true w.limit [] (w.words ⟨p.absolute, above⟩) = .ok d)
    (hdir : w.tree.node d = some .dir) (hn : w.tree.node (d ++ [n]) = none) :
    Leads p (d ++ n :: names)

variable {w}

theorem words_append (absolute : Bool) (above : List String) {names : List Name}
    (h : ∀ m ∈ names, segOf m = .name m) :
    w.words ⟨absolute, above ++ parts names⟩ =
      w.words ⟨absolute, above⟩ ++ names.map .name := by
  have hmap : (parts names).map (fun part => segOf part.toList) = names.map .name := by
    rw [parts, List.map_map]
    exact List.map_congr_left fun m hm => by simpa using h m hm
  rw [words, words, List.map_append, hmap, List.append_assoc]

theorem createDirs_grows (w : World) (dir : Path) : w.tree.Grows (w.createDirs dir).tree :=
  createDirAll_grows w.limit _ w.tree

theorem find_spec (h : w.find p = some q) : w.place p = .ok q ∧ w.tree.node q ≠ none := by
  unfold find at h
  split at h
  next hplace =>
    split at h
    next hsome =>
      cases h
      exact ⟨hplace, Option.isSome_iff_ne_none.mp hsome⟩
    next => cases h
  next => cases h

theorem place_resolve (h : w.place p = .ok q) :
    w.tree.resolve true w.limit [] (w.words p) = .ok q := by
  unfold place at h
  split at h
  · cases h
  · exact h

theorem Leads.place {t : FileTree Name} (h : w.Leads p q) (ht : w.tree.Grows t)
    (hq : { w with tree := t }.place p = .ok q') : q' = q := by
  have hres' := place_resolve hq
  cases h with
  | found hfind =>
    obtain ⟨hplace, hnode⟩ := find_spec hfind
    have hkeep := ht.resolve w.limit [] _ (place_resolve hplace) hnode
    exact Except.ok.inj (hres'.symm.trans hkeep)
  | missing hparts hnames hd hdir hn =>
    obtain ⟨absolute, words⟩ := p
    dsimp only at hparts
    subst hparts
    change t.resolve true w.limit [] (w.words ⟨absolute, _⟩) = .ok q' at hres'
    rw [words_append absolute _ fun m hm => (hnames m hm).1] at hres'
    exact ht.resolve_missing hd hdir hn hres'

@[simp] theorem fileSystem_canonicalize (p : Path) :
    w.fileSystem.canonicalize p = (w.find p).map fun q => ⟨true, parts q⟩ := rfl

@[simp] theorem fileSystem_exists (p : Path) : w.fileSystem.exists? p = (w.find p).isSome := rfl

theorem parts_append (a b : List Name) : parts (a ++ b) = parts a ++ parts b := List.map_append

theorem parts_prefix_iff : parts a <+: parts b ↔ a <+: b :=
  List.prefix_map_iff_of_injective fun _ _ => String.ofList_injective

theorem find_missing (hnames : ∀ m ∈ n :: names, segOf m = .name m ∧ m ≠ ['/'])
    (hd : w.tree.resolve true w.limit [] (w.words ⟨absolute, above⟩) = .ok d)
    (hdir : w.tree.node d = some .dir) (hn : w.tree.node (d ++ [n]) = none) :
    w.find ⟨absolute, above ++ parts (n :: names)⟩ = none := by
  have hleads : w.Leads ⟨absolute, above ++ parts (n :: names)⟩ (d ++ n :: names) :=
    .missing rfl hnames hd hdir hn
  have hnone : w.tree.node (d ++ n :: names) = none := by
    have := FileTree.node_append_none hn names
    rwa [List.append_assoc] at this
  unfold find
  split
  next q hq =>
    rw [hleads.place (.refl w.tree) hq, hnone]
    rfl
  next => rfl

theorem not_dots (h : segOf m = .name m) : ¬ (String.ofList m = ".." ∨ String.ofList m = ".") := by
  rintro (he | he)
  · have hm : m = ['.', '.'] := by simpa using congrArg String.toList he
    rw [hm] at h
    exact absurd h (by decide)
  · have hm : m = ['.'] := by simpa using congrArg String.toList he
    rw [hm] at h
    exact absurd h (by decide)

theorem resolveAncestor_cons (h : segOf m = .name m) :
    w.fileSystem.resolveAncestor absolute (String.ofList m :: above) tail =
      match w.find ⟨absolute, above.reverse⟩ with
      | some q => some ⟨true, parts q ++ String.ofList m :: tail⟩
      | none => w.fileSystem.resolveAncestor absolute above (String.ofList m :: tail) := by
  rw [FileSystem.resolveAncestor, if_neg (not_dots h)]
  cases hfind : w.find ⟨absolute, above.reverse⟩ <;> simp [hfind]

theorem resolveAncestor_missing (hnames : ∀ m ∈ n :: names, segOf m = .name m ∧ m ≠ ['/'])
    (hd : w.tree.resolve true w.limit [] (w.words ⟨absolute, above⟩) = .ok d)
    (hdir : w.tree.node d = some .dir) (hn : w.tree.node (d ++ [n]) = none) (tail : List String) :
    w.fileSystem.resolveAncestor absolute (above ++ parts (n :: names)).reverse tail =
      match w.find ⟨absolute, above⟩ with
      | some q => some ⟨true, parts q ++ (parts (n :: names) ++ tail)⟩
      | none => w.fileSystem.resolveAncestor absolute above.reverse
        (parts (n :: names) ++ tail) := by
  induction names using List.reverseRecOn generalizing tail with
  | nil =>
    have hrev : (above ++ parts [n]).reverse = String.ofList n :: above.reverse := by simp [parts]
    rw [hrev, resolveAncestor_cons (hnames n List.mem_cons_self).1, List.reverse_reverse]
    rfl
  | append_singleton names m ih =>
    have hnames' : ∀ m ∈ n :: names, segOf m = .name m ∧ m ≠ ['/'] := fun x hx =>
      hnames x (List.mem_append_left [m] hx)
    have hm := (hnames m (by simp)).1
    have hrev : (above ++ parts (n :: (names ++ [m]))).reverse =
        String.ofList m :: (above ++ parts (n :: names)).reverse := by simp [parts]
    have htail : parts (n :: (names ++ [m])) ++ tail =
        parts (n :: names) ++ String.ofList m :: tail := by simp [parts]
    rw [hrev, resolveAncestor_cons hm, List.reverse_reverse, find_missing hnames' hd hdir hn, htail]
    exact ih hnames' _

theorem Leads.canonicalLossy (h : w.Leads p q) :
    w.fileSystem.canonicalLossy p = ⟨true, parts q⟩ ∨
      ∃ d n names, w.tree.resolve true w.limit [] (w.words ⟨false, []⟩) = .ok d ∧
        q = d ++ n :: names ∧ n ≠ ['/'] ∧
        w.fileSystem.canonicalLossy p = ⟨false, parts (n :: names)⟩ := by
  unfold FileSystem.canonicalLossy
  cases h with
  | found hfind =>
    rw [fileSystem_canonicalize, hfind]
    exact .inl rfl
  | @missing above n names d hparts hnames hd hdir hn =>
    obtain ⟨absolute, words⟩ := p
    dsimp only at hparts hd
    subst hparts
    have hcanon : w.fileSystem.canonicalize ⟨absolute, above ++ parts (n :: names)⟩ = none := by
      rw [fileSystem_canonicalize, find_missing hnames hd hdir hn, Option.map_none]
    rw [hcanon]
    dsimp only
    rw [resolveAncestor_missing hnames hd hdir hn, List.append_nil]
    by_cases hempty : (!absolute && above.isEmpty) = true
    · simp only [Bool.and_eq_true, Bool.not_eq_true', List.isEmpty_iff] at hempty
      obtain ⟨rfl, rfl⟩ := hempty
      exact .inr ⟨d, n, names, hd, rfl, (hnames n List.mem_cons_self).2, rfl⟩
    · have hfind : w.find ⟨absolute, above⟩ = some d := by
        rw [find, World.place, if_neg hempty, hd]
        simp [hdir]
      rw [hfind, parts_append]
      exact .inl rfl

theorem pathHasPrefix_confines (hpath : w.Leads path q) (hpfx : w.Leads (.new pfx) p)
    (h : w.fileSystem.pathHasPrefix path pfx = true) : p <+: q := by
  rw [FileSystem.pathHasPrefix, Path.startsWith, List.isPrefixOf_iff_prefix] at h
  have hslash {n : Name} (hn : n ≠ ['/']) : "/" ≠ String.ofList n := fun he =>
    hn (by simpa using (congrArg String.toList he).symm)
  obtain hq | ⟨d, n, names, hd, rfl, hn, hq⟩ := hpath.canonicalLossy <;>
    obtain hp | ⟨d', n', names', hd', rfl, hn', hp⟩ := hpfx.canonicalLossy <;> rw [hq, hp] at h
  · exact parts_prefix_iff.mp (List.cons_prefix_cons.mp h).2
  · exact absurd (List.cons_prefix_cons.mp h).1.symm (hslash hn')
  · exact absurd (List.cons_prefix_cons.mp h).1 (hslash hn)
  · cases hd.symm.trans hd'
    exact (List.prefix_append_right_inj d).mpr (parts_prefix_iff.mp h)

theorem allowsPath_confines {s : FsScope} (hpath : w.Leads path q)
    (hallow : ∀ pfx ∈ s.allow, ∃ p, w.Leads (.new pfx) p)
    (hguarded : s.deny = .all ∨ isWrite = true)
    (h : s.allowsPath w.fileSystem path isWrite = true) :
    ∃ pfx ∈ s.allow, ∃ p, w.Leads (.new pfx) p ∧ p <+: q := by
  have hany : s.allow.any (w.fileSystem.pathHasPrefix path ·) = true := by
    unfold Scope.allowsPath at h
    cases hdeny : s.deny with
    | all => simpa only [hdeny] using h
    | write =>
      have hwrite := hguarded.resolve_left (by rw [hdeny]; nofun)
      simpa only [hdeny, hwrite, Bool.not_true, Bool.false_or] using h
  obtain ⟨pfx, hmem, hpfx⟩ := List.any_eq_true.mp hany
  obtain ⟨p, hp⟩ := hallow pfx hmem
  exact ⟨pfx, hmem, p, hp, pathHasPrefix_confines hpath hp hpfx⟩

/-- What the system opens for a path that the check lets through, now and after directories that
were missing are created, is under where the prefix leads. -/
theorem path_has_prefix_confined (w : World) (path : Path) (pfx : String) (hpath : w.Leads path q)
    (hpfx : w.Leads (.new pfx) p) (h : w.fileSystem.pathHasPrefix path pfx = true) (w' : World)
    (hw' : w' = w ∨ ∃ dir, w' = w.createDirs dir) (hopen : w'.place path = .ok q') :
    p <+: q' ∧ ∀ p', w'.place (.new pfx) = .ok p' → p' = p := by
  have hconfined := pathHasPrefix_confines hpath hpfx h
  obtain ⟨t, ht, rfl⟩ : ∃ t, w.tree.Grows t ∧ w' = { w with tree := t } := by
    obtain rfl | ⟨dir, rfl⟩ := hw'
    · exact ⟨w'.tree, .refl _, rfl⟩
    · exact ⟨_, w.createDirs_grows dir, rfl⟩
  rw [hpath.place ht hopen]
  exact ⟨hconfined, fun p' hp' => hpfx.place ht hp'⟩

def twoDirs : FileTree Name where
  node p := if p ∈ [[], [['a']], [['s']]] then some .dir else none
  root := by decide
  closed {p n} h := by
    split at h
    next hmem =>
      have hp : p = [] := by
        simp only [List.mem_cons, List.not_mem_nil, or_false, List.append_eq_nil_iff,
          List.cons_ne_nil, and_false, false_or] at hmem
        obtain he | he := hmem
        · have he : p ++ [n] = [] ++ [['a']] := he
          exact (List.append_inj' he rfl).1
        · have he : p ++ [n] = [] ++ [['s']] := he
          exact (List.append_inj' he rfl).1
      rw [hp, if_pos (by decide)]
    next => exact absurd rfl h

def twoDirsWorld : World := ⟨twoDirs, [], 40⟩

theorem new_a : Path.new "a" = ⟨false, ["a"]⟩ := by
  have hslash : "a".startsWith "/" = false := by simp
  have hsplit : "a".splitOn "/" = ["a"] := by
    rw [String.splitOn, if_neg (by decide), String.splitOnAux, if_neg (by decide),
      if_neg (by decide), String.splitOnAux, if_pos (by decide)]
    decide
  rw [Path.new, hslash, hsplit]
  decide

theorem path_has_prefix_confined_below :
    twoDirsWorld.fileSystem.pathHasPrefix ⟨false, ["a", "m", "x"]⟩ "a" = true ∧
      (twoDirsWorld.createDirs ⟨false, ["a", "m"]⟩).place ⟨false, ["a", "m", "x"]⟩ =
        .ok [['a'], ['m'], ['x']] ∧
      [['a']] <+: [['a'], ['m'], ['x']] := by
  have hparts : (⟨false, ["a", "m", "x"]⟩ : Path).parts = ["a"] ++ parts [['m'], ['x']] := by decide
  have hpath : twoDirsWorld.Leads ⟨false, ["a", "m", "x"]⟩ ([['a']] ++ [['m'], ['x']]) :=
    .missing hparts (by decide) rfl rfl rfl
  have hpfx : twoDirsWorld.Leads (.new "a") [['a']] := by
    rw [new_a]
    exact .found rfl
  have hcheck : twoDirsWorld.fileSystem.pathHasPrefix ⟨false, ["a", "m", "x"]⟩ "a" = true := by
    rw [FileSystem.pathHasPrefix, new_a]
    rfl
  have hopen : (twoDirsWorld.createDirs ⟨false, ["a", "m"]⟩).place ⟨false, ["a", "m", "x"]⟩ =
      .ok [['a'], ['m'], ['x']] := rfl
  exact ⟨hcheck, hopen,
    (path_has_prefix_confined _ _ _ hpath hpfx hcheck _ (.inr ⟨_, rfl⟩) hopen).1⟩

/-- Once `a/m` is there, `a/m/../../s/x` is not below `a`. -/
theorem dots_after_missing_escape : ¬ ∀ (w : World) (path : Path) (pfx : String),
    w.fileSystem.pathHasPrefix path pfx = true → ∀ dir q p,
      (w.createDirs dir).place path = .ok q → (w.createDirs dir).place (.new pfx) = .ok p →
        p <+: q := by
  intro h
  have hcheck : twoDirsWorld.fileSystem.pathHasPrefix ⟨false, ["a", "m", "..", "..", "s", "x"]⟩
      "a" = true := by
    rw [FileSystem.pathHasPrefix, new_a]
    rfl
  have hpfx : (twoDirsWorld.createDirs ⟨false, ["a", "m", "..", "..", "s"]⟩).place (.new "a") =
      .ok [['a']] := by
    rw [new_a]
    rfl
  have hescape := h twoDirsWorld _ "a" hcheck ⟨false, ["a", "m", "..", "..", "s"]⟩ [['s'], ['x']]
    [['a']] rfl hpfx
  exact absurd hescape (by decide)

end World

end AScript.Stdlib
