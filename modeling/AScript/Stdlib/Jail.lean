import AScript.Stdlib.Extract

namespace AScript.Stdlib.Extract

open AScript.Lib

theorem pushPart_eq (parts : List Name) (raw : Name) :
    pushPart parts raw = stepDown parts (segOf raw) := by
  unfold pushPart segOf
  split
  · rfl
  · split
    · simp only [stepDown, List.isEmpty_iff]
    · rfl

theorem foldlM_pushPart (parts : List Name) (raws : List Name) :
    raws.foldlM pushPart parts = descend parts (raws.map segOf) := by
  rw [descend, List.foldlM_map]
  congr 1
  funext parts raw
  exact pushPart_eq parts raw

/-- The words of an entry's name. -/
def nameWords (name : List Char) : List (Seg Name) := (name.splitOnP isSeparator).map segOf

/-- No byte of it is NUL, and it starts with no root and no drive. -/
structure Relative (name : List Char) : Prop where
  noNul : nul ∉ name
  noRoot : ¬ ['/'] <+: name ∧ ¬ [backslash] <+: name
  noDrive : ∀ letter rest, name = letter :: ':' :: rest → letter.isAlpha = false

theorem hasDrive_eq_false_iff (name : List Char) : hasDrive name = false ↔
    ∀ letter rest, name = letter :: ':' :: rest → letter.isAlpha = false := by
  unfold hasDrive
  split
  next letter rest => simp
  next h => simpa using fun letter rest he => absurd he (h letter rest)

theorem classifyEntryName_iff (name : List Char) (rel : List Name) :
    classifyEntryName name = .ok rel ↔ Relative name ∧
      (∀ p, p <+: nameWords name → 0 ≤ depth p) ∧ NormalForm (nameWords name) rel ∧ rel ≠ [] := by
  rw [← and_assoc (c := rel ≠ []), ← descend_iff]
  unfold classifyEntryName
  rw [foldlM_pushPart, ← nameWords]
  constructor
  · intro h
    split at h
    · cases h
    split at h
    · cases h
    split at h
    · cases h
    next hnul hroot hdrive =>
      refine ⟨⟨hnul, not_or.mp hroot, (hasDrive_eq_false_iff name).mp (by simpa using hdrive)⟩, ?_⟩
      split at h
      · cases h
      · cases h
      next hne hparts =>
        cases h
        exact ⟨hparts, hne⟩
  · rintro ⟨⟨hnul, hroot, hdrive⟩, hdesc, hne⟩
    rw [if_neg hnul, if_neg (not_or.mpr hroot), (hasDrive_eq_false_iff name).mpr hdrive,
      if_neg (by decide), hdesc]
    split
    next h => cases h
    next h => exact absurd (Option.some.inj h) hne
    next h => rw [Option.some.inj h]

def Below (root p : Path) : Prop := ∃ rel, rel ≠ [] ∧ p = root ++ rel

structure Jailed (t : FileTree Name) (root p : Path) : Prop where
  below : Below root p
  dirs : ∀ q, q <+: p → q ≠ p → t.node q = some .dir
  leaf : ¬ t.IsLink p

def NoNewLinks (t t' : FileTree Name) : Prop :=
  ∀ p absolute target, t'.node p = some (.link absolute target) →
    t.node p = some (.link absolute target)

/-- What extraction has left alone since it started, and how it has touched the rest. -/
structure Contained (start : FileTree Name) (root : Path) (d : Disk) : Prop where
  outside : ∀ p, ¬ Below root p → d.tree.node p = start.node p
  links : NoNewLinks start d.tree
  touched : ∀ touch ∈ d.touched, touch.place = touch.path ∧ Jailed touch.before root touch.path ∧
    NoNewLinks start touch.before

theorem NoNewLinks.refl (t : FileTree Name) : NoNewLinks t t := fun _ _ _ => id

theorem NoNewLinks.trans {t t' t'' : FileTree Name} (h : NoNewLinks t t') (h' : NoNewLinks t' t'') :
    NoNewLinks t t'' := fun p a tg hp => h p a tg (h' p a tg hp)

theorem NoNewLinks.clear {t t' : FileTree Name} (h : NoNewLinks t t') (hp : t.Clear p) :
    t'.Clear p := by
  rintro q hq hne ⟨a, tg, hlink⟩
  exact hp q hq hne ⟨a, tg, h q a tg hlink⟩

def Sound (limit : Nat) (follow : Bool) (call : Call) : Prop :=
  ∀ t path q t', call t path = .ok (q, t') →
    t.resolve follow limit [] path = .ok q ∧ t.Touches q t'

theorem Disk.act_links {d : Disk} (hcall : Sound limit followLast call) :
    NoNewLinks d.tree (d.act path call).2.tree := by
  unfold Disk.act
  split
  next h => exact (hcall _ _ _ _ h).2.links
  · exact .refl _

theorem Below.ne_nil (h : Below root p) : p ≠ [] := by
  obtain ⟨rel, hrel, rfl⟩ := h
  simp [hrel]

theorem Jailed.of_clear {t : FileTree Name} (hbelow : Below root p) (hclear : t.Clear p)
    (hdir : t.node p.dropLast = some .dir) : Jailed t root p := by
  refine ⟨hbelow, ?_, hclear p (List.prefix_refl p) hbelow.ne_nil⟩
  rintro q ⟨rest, rfl⟩ hne
  have hrest : rest ≠ [] := fun he => hne (by rw [he, List.append_nil])
  rw [List.dropLast_append_of_ne_nil hrest] at hdir
  by_cases hmid : rest.dropLast = []
  · rwa [hmid, List.append_nil] at hdir
  · exact t.ancestors _ q (by rw [hdir]; nofun) hmid

theorem Contained.act (h : Contained start root d) (hcall : Sound limit followLast call)
    (hbelow : Below root path) (hclear : ∀ q,
      d.tree.resolve followLast limit [] (path.map .name) = .ok q → d.tree.Clear path) :
    Contained start root (d.act path call).2 := by
  unfold Disk.act
  split
  next place tree hok =>
    obtain ⟨hresolve, htouch⟩ := hcall _ _ _ _ hok
    have hpath := hclear place hresolve
    obtain rfl : place = path := FileTree.resolve_names limit [] path
      (hpath.of_prefix (List.dropLast_prefix _))
      (fun _ => hpath _ (List.prefix_refl _) hbelow.ne_nil) hresolve
    refine ⟨fun p hp => ?_, h.links.trans htouch.links, fun touch ht => ?_⟩
    · rw [htouch.elsewhere p fun he => hp (he ▸ hbelow)]
      exact h.outside p hp
    · obtain ht | ht := List.mem_append.mp ht
      · exact h.touched touch ht
      · cases List.mem_singleton.mp ht
        exact ⟨rfl, .of_clear hbelow hpath htouch.inDir.2, h.links⟩
  · exact h

theorem mkdir_sound (limit : Nat) : Sound limit false (·.mkdir limit) :=
  fun _ _ _ _ => FileTree.mkdir_touches

theorem write_sound (limit newMode : Nat) (data : List UInt8) :
    Sound limit true (·.write limit · data newMode) := fun _ _ _ _ => FileTree.write_touches

theorem chmod_sound (limit mode : Nat) : Sound limit true (·.chmod limit · mode) :=
  fun _ _ _ _ => FileTree.chmod_touches

theorem remove_sound (limit : Nat) : Sound limit false (·.remove limit) :=
  fun _ _ _ _ => FileTree.remove_touches

theorem lookup_names {t : FileTree Name} (hclear : t.Clear path.dropLast)
    (h : t.resolve false limit [] (path.map .name) = .ok q) :
    t.lookup limit false (path.map .name) = match t.node path with
      | some v => .ok (path, v)
      | none => .error .notFound := by
  obtain rfl : q = path := FileTree.resolve_names limit [] path hclear
    (fun hfollow : false = true => nomatch hfollow) h
  simp only [FileTree.lookup, h, bind, Except.bind]
  cases t.node q <;> rfl

theorem clear_of_mkdir {t : FileTree Name} (hclear : t.Clear cur)
    (hlookup : t.lookup limit false ((cur ++ [comp]).map .name) = .error e)
    (h : t.resolve false limit [] ((cur ++ [comp]).map .name) = .ok q) :
    t.Clear (cur ++ [comp]) := by
  rw [lookup_names (by rwa [List.dropLast_concat]) h] at hlookup
  refine hclear.append ?_
  rintro ⟨absolute, target, hnode⟩
  rw [hnode] at hlookup
  cases hlookup

theorem clear_after_mkdir {d d' : Disk} (h : d.act (cur ++ [comp]) (·.mkdir limit) = (.ok (), d'))
    (hmade : ∀ q, d.tree.resolve false limit [] ((cur ++ [comp]).map .name) = .ok q →
      d.tree.Clear (cur ++ [comp])) : d'.tree.Clear (cur ++ [comp]) := by
  have hlinks : NoNewLinks d.tree (d.act (cur ++ [comp]) (·.mkdir limit)).2.tree :=
    Disk.act_links (mkdir_sound limit)
  rw [h] at hlinks
  refine hlinks.clear ?_
  unfold Disk.act at h
  split at h
  next hok => exact hmade _ (FileTree.mkdir_touches hok).1
  · cases h

theorem lookup_not_link {t : FileTree Name} (hclear : t.Clear cur)
    (h : t.lookup limit false ((cur ++ [comp]).map .name) = .ok (q, v))
    (hv : ∀ absolute target, v ≠ .link absolute target) : t.Clear (cur ++ [comp]) := by
  refine hclear.append ?_
  rintro ⟨absolute, target, hnode⟩
  cases hr : t.resolve false limit [] ((cur ++ [comp]).map .name) with
  | error e =>
    rw [FileTree.lookup, hr] at h
    cases h
  | ok q' =>
    rw [lookup_names (by rwa [List.dropLast_concat]) hr, hnode] at h
    cases h
    exact hv _ _ rfl

section

variable {limit : Nat} {osText : OsError → String} {newMode : Nat} {fault : Nat → Option Nat}

theorem makeDirsNofollow_contained (limit : Nat) (osText : OsError → String) :
    ∀ (comps : List Name) (cur : Path) (leafIsDir : Bool)
    (d : Disk), Contained start root d → d.tree.Clear cur → root <+: cur →
    Contained start root (makeDirsNofollow limit osText cur comps leafIsDir d).2 ∧
      NoNewLinks d.tree (makeDirsNofollow limit osText cur comps leafIsDir d).2.tree ∧
      ((makeDirsNofollow limit osText cur comps leafIsDir d).1 = .ok () →
        (makeDirsNofollow limit osText cur comps leafIsDir d).2.tree.Clear
          (cur ++ if leafIsDir then comps else comps.dropLast))
  | [], cur, leafIsDir, d, h, hcur, _ => by
    refine ⟨h, .refl _, fun _ => ?_⟩
    cases leafIsDir <;> simpa [makeDirsNofollow] using hcur
  | comp :: comps, cur, leafIsDir, d, h, hcur, hroot => by
    have hbelow : Below root (cur ++ [comp]) := by
      obtain ⟨rest, rfl⟩ := hroot
      exact ⟨rest ++ [comp], by simp, List.append_assoc ..⟩
    rw [makeDirsNofollow]
    split
    next hstop =>
      obtain ⟨rfl, rfl⟩ := hstop
      exact ⟨h, .refl _, fun _ => by simpa using hcur⟩
    next hstop =>
      have hrest : (cur ++ if leafIsDir then comp :: comps else (comp :: comps).dropLast) =
          cur ++ [comp] ++ if leafIsDir then comps else comps.dropLast := by
        cases leafIsDir with
        | true => simp
        | false =>
          have hne : comps ≠ [] := fun he => hstop ⟨he, rfl⟩
          simp [List.dropLast_cons_of_ne_nil hne]
      rw [hrest]
      split
      · exact ⟨h, .refl _, nofun⟩
      · exact ⟨h, .refl _, nofun⟩
      next hlookup =>
        exact makeDirsNofollow_contained limit osText comps (cur ++ [comp]) leafIsDir d h
          (lookup_not_link hcur hlookup nofun) (hroot.trans (List.prefix_append _ _))
      next hlookup =>
        have hmade := fun q => clear_of_mkdir (q := q) hcur hlookup
        have hact := h.act (mkdir_sound limit) hbelow hmade
        have hlinks : NoNewLinks d.tree (d.act (cur ++ [comp]) (·.mkdir limit)).2.tree :=
          Disk.act_links (mkdir_sound limit)
        split
        next d' hok =>
          rw [hok] at hact hlinks
          obtain ⟨hc, hl, hclear⟩ := makeDirsNofollow_contained limit osText comps
            (cur ++ [comp]) leafIsDir d' hact
            (clear_after_mkdir hok hmade) (hroot.trans (List.prefix_append _ _))
          exact ⟨hc, hlinks.trans hl, hclear⟩
        next hfail =>
          rw [hfail] at hact hlinks
          exact ⟨hact, hlinks, nofun⟩

structure Running (start : FileTree Name) (root : Path) (written : List Path) (d : Disk) :
    Prop where
  contained : Contained start root d
  base : d.tree.Clear root
  files : ∀ f ∈ written, Below root f ∧ d.tree.Clear f

theorem Running.mono (h : Running start root written d) (hc : Contained start root d')
    (hl : NoNewLinks d.tree d'.tree) : Running start root written d' :=
  ⟨hc, hl.clear h.base, fun f hf => ⟨(h.files f hf).1, hl.clear (h.files f hf).2⟩⟩

theorem Running.act (h : Running start root written d) (hcall : Sound limit followLast call)
    (hbelow : Below root path) (hclear : ∀ q,
      d.tree.resolve followLast limit [] (path.map .name) = .ok q → d.tree.Clear path) :
    Running start root written (d.act path call).2 :=
  h.mono (h.contained.act hcall hbelow hclear) (Disk.act_links hcall)

theorem clear_of_write {t : FileTree Name} (hne : path ≠ []) (hclear : t.Clear path.dropLast)
    (hlookup : ∀ q absolute target,
      t.lookup limit false (path.map .name) ≠ .ok (q, .link absolute target))
    (h : t.resolve true limit [] (path.map .name) = .ok q) : t.Clear path := by
  have hlast : path.dropLast ++ [path.getLast hne] = path := List.dropLast_concat_getLast hne
  have hnofollow := FileTree.resolve_nofollow limit [] path hclear h
  rw [← hlast]
  refine hclear.append ?_
  rw [hlast]
  rintro ⟨absolute, target, hnode⟩
  refine hlookup path absolute target ?_
  rw [lookup_names hclear hnofollow, hnode]

theorem Disk.write_snd (d : Disk) (path : Path) (data : List UInt8) (brokenOff : Option Nat) :
    (d.write limit newMode path data brokenOff).2 =
      (d.act path (·.write limit · (brokenOff.elim data data.take) newMode)).2 := by
  unfold Disk.write
  split
  next h => rw [h]
  next h => rw [h]

theorem Disk.write_ok {d d' : Disk} (h : d.write limit newMode path data brokenOff = (.ok (), d')) :
    brokenOff = none ∧ ∃ q t, d.tree.write limit (path.map .name) data newMode = .ok (q, t) ∧
      d' = ⟨t, d.touched ++ [⟨d.tree, path, q⟩]⟩ := by
  unfold Disk.write at h
  split at h
  next hact =>
    cases brokenOff with
    | some n => cases h
    | none =>
      cases h
      refine ⟨rfl, ?_⟩
      unfold Disk.act at hact
      split at hact
      next q t hdone =>
        cases hact
        exact ⟨q, t, hdone, rfl⟩
      · cases hact
  next => cases h

theorem writeEntry_running (h : Running start root written d) (hrel : rel ≠ []) :
    Running start root
      (writeEntry limit osText newMode fault root rel (root ++ rel) data mode written d).2.1
      (writeEntry limit osText newMode fault root rel (root ++ rel) data mode written d).2.2 := by
  obtain ⟨hc, hl, hclear⟩ := makeDirsNofollow_contained limit osText rel root
    false d h.contained h.base (List.prefix_refl root)
  have hbelow : Below root (root ++ rel) := ⟨rel, hrel, rfl⟩
  have hmade := h.mono hc hl
  unfold writeEntry
  split
  next hfail =>
    rw [hfail] at hmade
    exact hmade
  next d' hok =>
    rw [hok] at hclear hmade
    have hdirs : d'.tree.Clear (root ++ rel).dropLast := by
      rw [List.dropLast_append_of_ne_nil hrel]
      exact hclear rfl
    split
    · exact hmade
    next hlookup =>
      have hfree := fun q => clear_of_write (q := q) hbelow.ne_nil hdirs
        fun q absolute target he => hlookup q absolute target he
      have hwrite := hmade.act
        (write_sound limit newMode ((fault written.length).elim data data.take)) hbelow hfree
      rw [← Disk.write_snd] at hwrite
      split
      next hfail =>
        rw [hfail] at hwrite
        exact hwrite
      next d'' hok' =>
        have hpath : d''.tree.Clear (root ++ rel) := by
          obtain ⟨-, q, t, hdone, rfl⟩ := Disk.write_ok hok'
          obtain ⟨hresolve, htouch⟩ := FileTree.write_touches hdone
          exact NoNewLinks.clear htouch.links (hfree q hresolve)
        rw [hok'] at hwrite
        have hadd : Running start root (written ++ [root ++ rel]) d'' := by
          refine ⟨hwrite.contained, hwrite.base, fun f hf => ?_⟩
          obtain hf | hf := List.mem_append.mp hf
          · exact hwrite.files f hf
          · exact List.mem_singleton.mp hf ▸ ⟨hbelow, hpath⟩
        exact hadd.act (chmod_sound limit mode) hbelow fun _ _ => hpath

theorem rollback_contained (h : Running start root written d) :
    Contained start root (rollback limit written d) := by
  have hall : ∀ (files : List Path) (d : Disk), Running start root written d → files ⊆ written →
      Running start root written
        (files.foldl (fun d f => (d.act f (·.remove limit)).2) d) := by
    intro files
    induction files with
    | nil => exact fun d h _ => h
    | cons f files ih =>
      intro d h hsub
      obtain ⟨hbelow, hclear⟩ := h.files f (hsub (.head files))
      exact ih _ (h.act (remove_sound limit) hbelow fun _ _ => hclear) fun g hg => hsub (.tail f hg)
  exact (hall written.reverse d h fun f hf => List.mem_reverse.mp hf).contained

theorem safeWritePath_ok (h : safeWritePath root name = .ok (path, rel)) :
    path = root ++ rel ∧ rel ≠ [] ∧ classifyEntryName name = .ok rel := by
  unfold safeWritePath at h
  cases hc : classifyEntryName name with
  | error e =>
    rw [hc] at h
    cases h
  | ok parts =>
    rw [hc] at h
    simp only [bind, Except.bind] at h
    split at h
    · cases h
    · cases h
      exact ⟨rfl, ((classifyEntryName_iff name rel).mp hc).2.2.2, rfl⟩

theorem extractEntry_running (limit : Nat) (osText : OsError → String) (newMode : Nat)
    (fault : Nat → Option Nat)
    (h : Running start root written d) (policy : LinkPolicy) (entry : Entry) :
    Running start root (extractEntry limit osText newMode fault policy root entry written d).2.1
      (extractEntry limit osText newMode fault policy root entry written d).2.2 := by
  unfold extractEntry
  split
  · cases policy <;> exact h
  split
  · exact h
  split
  · exact h
  next path rel hpath =>
    obtain ⟨rfl, hrel, -⟩ := safeWritePath_ok hpath
    split
    · obtain ⟨hc, hl, -⟩ := makeDirsNofollow_contained limit osText rel root
        true d h.contained h.base (List.prefix_refl root)
      exact h.mono hc hl
    · split
      · exact h
      · exact writeEntry_running h hrel

theorem extractEntries_contained (policy : LinkPolicy) (root : Path) :
    ∀ (entries : List (Except String Entry)) (written : List Path) (d : Disk),
    Running start root written d →
    Contained start root (extractEntries limit osText newMode fault policy root entries written d).2
  | [], _, _, h => h.contained
  | .error _ :: _, _, _, h => rollback_contained h
  | .ok entry :: entries, written, d, h => by
    have hentry := extractEntry_running limit osText newMode fault h policy entry
    rw [extractEntries]
    split
    next he =>
      rw [he] at hentry
      exact extractEntries_contained policy root entries _ _ hentry
    next he =>
      rw [he] at hentry
      exact rollback_contained hentry

theorem lookup_clear {t : FileTree Name} (h : t.lookup limit true path = .ok (root, v)) :
    t.Clear root := by
  unfold FileTree.lookup at h
  cases hr : t.resolve true limit [] path with
  | error e =>
    rw [hr] at h
    cases h
  | ok q =>
    rw [hr] at h
    simp only [bind, Except.bind] at h
    split at h
    next hnode =>
      cases h
      have hlast := FileTree.resolve_not_link limit [] path t.root hr
      rintro p ⟨rest, rfl⟩ - ⟨absolute, target, hlink⟩
      by_cases hrest : rest = []
      · rw [hrest, List.append_nil] at hlast
        exact hlast ⟨absolute, target, hlink⟩
      · have hdir := t.ancestors rest p (by rw [hnode]; nofun) hrest
        cases hdir.symm.trans hlink
    · cases h

theorem lookupDest_clear {t : FileTree Name}
    (h : lookupDest limit t cwd dest = .ok (root, v)) : t.Clear root := by
  unfold lookupDest at h
  split at h
  · cases h
  split at h
  · cases h
  · exact lookup_clear h

theorem jailRoot_clear (h : jailRoot limit osText tree cwd dest = (.ok root, start)) :
    start.Clear root := by
  unfold jailRoot at h
  simp only at h
  split at h
  · cases h
  · split at h
    next hlookup =>
      cases h
      exact lookupDest_clear hlookup
    · cases h

theorem jailRoot_existing (h : lookupDest limit tree cwd dest = .ok (root, v)) :
    jailRoot limit osText tree cwd dest = (.ok root, tree) := by
  simp [jailRoot, h]

end

/-- Whatever the entries, extraction changes what is strictly below the canonical destination only,
each place it creates, writes or removes is where its path says and is reached through real
directories, and it makes no link; a destination that is there is left as it is. Just the names that
are relative, never step above their root and lead somewhere are accepted, as their normal form. -/
theorem extraction_contained :
    (∀ (limit : Nat) (osText : OsError → String) (newMode : Nat) (fault : Nat → Option Nat)
      (entries : Except String (List (Except String Entry))) (cwd : Path) (dest : List Char)
      (policy : LinkPolicy) (tree : FileTree Name),
      (∀ root start, jailRoot limit osText tree cwd dest = (.ok root, start) →
        Contained start root (runExtract limit osText newMode fault entries cwd dest policy
          tree).2) ∧
      (∀ e start, jailRoot limit osText tree cwd dest = (.error e, start) →
        (runExtract limit osText newMode fault entries cwd dest policy tree).2 = ⟨start, []⟩) ∧
      ∀ root v, lookupDest limit tree cwd dest = .ok (root, v) →
        jailRoot limit osText tree cwd dest = (.ok root, tree)) ∧
    ∀ (name : List Char) (rel : List Name), classifyEntryName name = .ok rel ↔ Relative name ∧
      (∀ p, p <+: nameWords name → 0 ≤ depth p) ∧ NormalForm (nameWords name) rel ∧ rel ≠ [] := by
  refine ⟨fun limit osText newMode fault entries cwd dest policy tree => ⟨?_, ?_, ?_⟩,
    classifyEntryName_iff⟩
  · intro root start hjail
    have hstart : Contained start root ⟨start, []⟩ := ⟨fun _ _ => rfl, .refl start, nofun⟩
    rw [runExtract, hjail]
    cases entries with
    | error e => exact hstart
    | ok entries =>
      exact extractEntries_contained policy root entries [] _ ⟨hstart, jailRoot_clear hjail, nofun⟩
  · intro e start hjail
    rw [runExtract, hjail]
  · exact fun root v => jailRoot_existing

/-- A directory `/d` with a link in it that leads to the root. -/
def sampleTree : FileTree Name where
  node p := if p = [] ∨ p = [['d']] then some .dir
    else if p = [['d'], ['l']] then some (.link true []) else none
  root := rfl
  closed {p n} h := by
    match p with
    | [] => rfl
    | [a] =>
      have ha : a = ['d'] := by
        by_contra hne
        simp [hne] at h
      rw [ha]
      rfl
    | a :: b :: p => simp at h

def sampleEntries : List (Except String Entry) :=
  [.ok ⟨['f'], .file, 1, 420, .ok [7]⟩, .ok ⟨['l', '/', 'x'], .file, 1, 420, .ok [8]⟩]

/-- The second entry would go through the link, and the first is taken back. -/
theorem extraction_contained_link :
    Contained sampleTree [['d']]
        (runExtract 99 (fun _ => "") 420 (fun _ => none) (.ok sampleEntries) [] ['/', 'd'] .skip
          sampleTree).2 ∧
      classifyEntryName ['a', '/', '.', '.', '/', 'b'] = .ok [['b']] := by
  have hwalk : descend [] (nameWords ['a', '/', '.', '.', '/', 'b']) = some [['b']] := by decide
  obtain ⟨hdepth, hnormal⟩ := (descend_iff _ _).mp hwalk
  have hrelative : Relative ['a', '/', '.', '.', '/', 'b'] :=
    ⟨by decide, by decide, fun letter rest h => by simp at h⟩
  exact ⟨(extraction_contained.1 99 (fun _ => "") 420 (fun _ => none) (.ok sampleEntries) []
    ['/', 'd'] .skip sampleTree).1 [['d']] sampleTree rfl,
    (extraction_contained.2 _ _).mpr ⟨hrelative, hdepth, hnormal, by decide⟩⟩

end AScript.Stdlib.Extract
