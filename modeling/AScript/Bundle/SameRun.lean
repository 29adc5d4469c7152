import AScript.Bundle.Identity
import Mathlib.Data.List.Nodup

namespace AScript.Bundle

open AScript.Lib

variable {S Err : Type} {tree : Tree S Err} {dir : List Text} {entry : Text} {main : Chunk S Err}

def Fresh (r : Run S) : Prop := r.ran.Nodup ∧ ∀ k ∈ r.ran, k ∈ r.fileModules

def Kept (r : Run S) : Result S Err → Prop
  | none => True
  | some (.error _, r') => r'.ran.Nodup
  | some (.ok (), r') => Fresh r' ∧ r.fileModules ⊆ r'.fileModules

theorem Kept.refl {r : Run S} (h : Fresh r) : Kept r (some (.ok (), r) : Result S Err) :=
  ⟨h, List.Subset.refl _⟩

theorem runItems_kept {load : Specifier → Run S → Result S Err}
    (hload : ∀ s r, Fresh r → Kept r (load s r)) :
    ∀ (items : Chunk S Err) (r : Run S), Fresh r → Kept r (runItems load items r)
  | [], r, h => .refl h
  | .act f :: items, r, h => by
    rw [runItems]
    cases f r.state with
    | ok state => exact runItems_kept hload items { r with state := state } h
    | error e => exact h.1
  | .imp s :: items, r, h => by
    rw [runItems]
    have hs := hload s r h
    match load s r, hs with
    | none, _ => trivial
    | some (.error e, r'), hs => exact hs
    | some (.ok (), r'), ⟨hfresh, hsub⟩ =>
      have hrest := runItems_kept hload items r' hfresh
      simp only
      match runItems load items r', hrest with
      | none, _ => trivial
      | some (.error e, r''), hrest => exact hrest
      | some (.ok (), r''), ⟨hfresh, hsub'⟩ => exact ⟨hfresh, List.Subset.trans hsub hsub'⟩

theorem Fresh.enter {r : Run S} (h : Fresh r) (hkey : cacheKey ∉ r.fileModules) :
    Fresh { r with fileModules := cacheKey :: r.fileModules, ran := r.ran ++ [cacheKey] } := by
  refine ⟨List.nodup_append.mpr ⟨h.1, List.nodup_singleton _, ?_⟩, fun k hk => ?_⟩
  · rintro k hk _ hk' rfl
    exact hkey (List.mem_singleton.mp hk' ▸ h.2 k hk)
  · obtain hk | hk := List.mem_append.mp hk
    · exact .tail _ (h.2 k hk)
    · exact List.mem_singleton.mp hk ▸ .head _

theorem runModuleBody_kept {load : List Text → Text → Specifier → Run S → Result S Err}
    (hload : ∀ d l s r, Fresh r → Kept r (load d l s r)) {r : Run S} (h : Fresh r)
    (hkey : cacheKey ∉ r.fileModules) :
    Kept r (runModuleBody load chunk cacheKey d l r) := by
  have hrun := runItems_kept (hload d l) chunk _ (h.enter hkey)
  rw [runModuleBody]
  match runItems (load d l) chunk _, hrun with
  | none, _ => trivial
  | some (.error e, r'), hrun => exact hrun
  | some (.ok (), r'), ⟨hfresh, hsub⟩ => exact ⟨hfresh, List.Subset.trans
      (List.subset_cons_self _ _) hsub⟩

theorem loadFileModule_kept (tree : Tree S Err) (archive : Option (List (Text × Chunk S Err))) :
    ∀ (fuel : Nat) (d : List Text) (l : Text) (s : Specifier) (r : Run S), Fresh r →
    Kept r (loadFileModule tree archive fuel d l s r)
  | 0, _, _, _, _, _ => trivial
  | fuel + 1, d, l, s, r, h => by
    have ih := loadFileModule_kept tree archive fuel
    rw [loadFileModule]
    split
    · rw [loadArchivedModule]
      split
      · exact .refl h
      next hkey => exact runModuleBody_kept ih h hkey
    · simp only [loadDiskModule]
      split
      · exact .refl h
      next hkey =>
        split
        · exact runModuleBody_kept ih h hkey
        · exact h.1

/-- A key of the archive and the file that it stands for. -/
def Same (tree : Tree S Err) (dir : List Text) (main : Chunk S Err) : CacheKey → CacheKey → Prop
  | .archive key, .disk file => Reached tree dir main key file
  | _, _ => False

theorem Straight.same_biUnique (h : Straight tree dir entry main) :
    Relator.BiUnique (Same tree dir main) := by
  constructor
  · rintro (_ | key) (_ | key') (file | _) hk hk' <;> try contradiction
    exact congrArg CacheKey.archive ((h.key_iff hk hk').mpr rfl)
  · rintro (_ | key) (file | _) (file' | _) hk hk' <;> try contradiction
    exact congrArg CacheKey.disk ((h.key_iff hk hk').mp rfl)

theorem forall₂_erase {R : CacheKey → CacheKey → Prop} (hR : Relator.BiUnique R) (hab : R a b)
    (h : List.Forall₂ R l l') : List.Forall₂ R (l.erase a) (l'.erase b) := by
  induction h with
  | nil => exact .nil
  | @cons x y l l' hxy h ih =>
    have heq : x = a ↔ y = b := Relator.rel_eq hR hxy hab
    by_cases hx : x = a
    · rw [List.erase_cons, List.erase_cons, if_pos (beq_iff_eq.mpr hx),
        if_pos (beq_iff_eq.mpr (heq.mp hx))]
      exact h
    · rw [List.erase_cons, List.erase_cons, if_neg (mt beq_iff_eq.mp hx),
        if_neg (mt beq_iff_eq.mp (mt heq.mpr hx))]
      exact .cons hxy ih

structure Agrees (tree : Tree S Err) (dir : List Text) (main : Chunk S Err) (a d : Run S) :
    Prop where
  state : a.state = d.state
  fileModules : List.Forall₂ (Same tree dir main) a.fileModules d.fileModules
  ran : List.Forall₂ (Same tree dir main) a.ran d.ran

/-- Both give out, or both end the same way. -/
def ResultsAgree (tree : Tree S Err) (dir : List Text) (main : Chunk S Err) :
    Result S Err → Result S Err → Prop
  | none, none => True
  | some (x, a), some (y, d) => x = y ∧ Agrees tree dir main a d
  | _, _ => False

theorem runItems_agree {loadA loadD : Specifier → Run S → Result S Err} :
    ∀ (items : Chunk S Err), (∀ s, .imp s ∈ items → ∀ a d, Agrees tree dir main a d →
      ResultsAgree tree dir main (loadA s a) (loadD s d)) → ∀ a d, Agrees tree dir main a d →
    ResultsAgree tree dir main (runItems loadA items a) (runItems loadD items d)
  | [], _, a, d, h => ⟨rfl, h⟩
  | .act f :: items, hload, a, d, h => by
    rw [runItems, runItems, h.state]
    cases f d.state with
    | ok state =>
      exact runItems_agree items (fun s hs => hload s (.tail _ hs)) _ _
        ⟨rfl, h.fileModules, h.ran⟩
    | error e => exact ⟨rfl, h⟩
  | .imp s :: items, hload, a, d, h => by
    rw [runItems, runItems]
    have hs := hload s (.head items) a d h
    match loadA s a, loadD s d, hs with
    | none, none, _ => trivial
    | some (.error e, a'), some (_, d'), ⟨rfl, h'⟩ => exact ⟨rfl, h'⟩
    | some (.ok (), a'), some (_, d'), ⟨rfl, h'⟩ =>
      exact runItems_agree items (fun s hs => hload s (.tail _ hs)) a' d' h'

theorem runModuleBody_agree (hs : Straight tree dir entry main)
    {loadA loadD : List Text → Text → Specifier → Run S → Result S Err}
    (hk : Reached tree dir main key file) {chunk : Chunk S Err}
    (hload : ∀ s, .imp s ∈ chunk → ∀ a d, Agrees tree dir main a d →
      ResultsAgree tree dir main (loadA dirA dirL s a) (loadD dirD dirM s d))
    (h : Agrees tree dir main a d) :
    ResultsAgree tree dir main (runModuleBody loadA chunk (.archive key) dirA dirL a)
      (runModuleBody loadD chunk (.disk file) dirD dirM d) := by
  have hsame : Same tree dir main (.archive key) (.disk file) := hk
  have hrun := runItems_agree chunk hload
    { a with fileModules := .archive key :: a.fileModules, ran := a.ran ++ [.archive key] }
    { d with fileModules := .disk file :: d.fileModules, ran := d.ran ++ [.disk file] }
    ⟨h.state, .cons hsame h.fileModules, List.rel_append h.ran (.cons hsame .nil)⟩
  rw [runModuleBody, runModuleBody]
  match runItems (loadA dirA dirL) chunk _, runItems (loadD dirD dirM) chunk _, hrun with
  | none, none, _ => trivial
  | some (.ok (), a'), some (_, d'), ⟨rfl, h'⟩ => exact ⟨rfl, h'⟩
  | some (.error e, a'), some (_, d'), ⟨rfl, h'⟩ =>
    exact ⟨rfl, h'.state, forall₂_erase hs.same_biUnique hsame h'.fileModules, h'.ran⟩

def Complete (tree : Tree S Err) (dir : List Text) (main : Chunk S Err)
    (archive : List (Text × Chunk S Err)) : Prop :=
  ∀ key file, Reached tree dir main key file →
    ∃ chunk, archive.lookup key = some chunk ∧ tree file = some chunk

theorem loadFileModule_agree (hs : Straight tree dir entry main)
    (hc : Complete tree dir main archive) (tree' : Tree S Err) (logicalDir' : Text) :
    ∀ (fuel : Nat) (dirA dirD : List Text) (logicalDir : Text) (s : Specifier) (a d : Run S),
    Reached tree dir main (joinLogical logicalDir s.text) (moduleFile dirD s.text) →
    Agrees tree dir main a d →
    ResultsAgree tree dir main (loadFileModule tree' (some archive) fuel dirA logicalDir s a)
      (loadFileModule tree none fuel dirD logicalDir' s d)
  | 0, _, _, _, _, _, _, _, _ => trivial
  | fuel + 1, dirA, dirD, logicalDir, s, a, d, hk, h => by
    obtain ⟨chunk, hlookup, hfile⟩ := hc _ _ hk
    have hsame : Same tree dir main (.archive (joinLogical logicalDir s.text))
        (.disk (moduleFile dirD s.text)) := hk
    have hmem := List.rel_mem hs.same_biUnique hsame h.fileModules
    rw [loadFileModule, loadFileModule, Option.bind_some, hlookup, Option.bind_none]
    simp only [loadArchivedModule, loadDiskModule, hmem, hfile]
    split
    · exact ⟨rfl, h⟩
    · exact runModuleBody_agree hs hk (fun t ht a d h' => loadFileModule_agree hs hc tree'
        logicalDir' fuel dirA _ _ t a d (hk.next hfile ht) h') h

def left (archive : List (Text × Chunk S Err)) (r : Run S) : Nat :=
  (archive.map Prod.fst).countP (CacheKey.archive · ∉ r.fileModules)

theorem left_lt {archive : List (Text × Chunk S Err)} {r r' : Run S}
    (hsub : .archive key :: r.fileModules ⊆ r'.fileModules)
    (hkey : .archive key ∉ r.fileModules) (hmem : key ∈ archive.map Prod.fst) :
    left archive r' < left archive r := by
  obtain ⟨before, after, hsplit⟩ := List.append_of_mem hmem
  have hle : ∀ keys : List Text, keys.countP (CacheKey.archive · ∉ r'.fileModules) ≤
      keys.countP (CacheKey.archive · ∉ r.fileModules) := fun keys =>
    List.countP_mono_left fun k _ hk =>
      decide_eq_true fun hin => of_decide_eq_true hk (hsub (.tail _ hin))
  have hbefore := hle before
  have hafter := hle after
  have hin : .archive key ∈ r'.fileModules := hsub (.head _)
  rw [left, left, hsplit, List.countP_append, List.countP_append,
    List.countP_cons_of_neg (by simpa),
    List.countP_cons_of_pos (by simpa)]
  omega

theorem runItems_isSome {load : Specifier → Run S → Result S Err}
    (hkept : ∀ s r, Fresh r → Kept r (load s r)) : ∀ (items : Chunk S Err) (r : Run S), Fresh r →
    (∀ s, .imp s ∈ items → ∀ r', Fresh r' → r.fileModules ⊆ r'.fileModules → (load s r').isSome) →
    (runItems load items r).isSome
  | [], _, _, _ => rfl
  | .act f :: items, r, h, hload => by
    rw [runItems]
    cases f r.state with
    | ok state => exact runItems_isSome hkept items _ h fun s hs => hload s (.tail _ hs)
    | error e => rfl
  | .imp s :: items, r, h, hload => by
    rw [runItems]
    have hs := hload s (.head items) r h (List.Subset.refl _)
    have hk := hkept s r h
    match load s r, hs, hk with
    | some (.error e, r'), _, _ => rfl
    | some (.ok (), r'), _, ⟨hfresh, hsub⟩ =>
      exact runItems_isSome hkept items r' hfresh fun t ht r'' h'' hsub' =>
        hload t (.tail _ ht) r'' h'' (List.Subset.trans hsub hsub')

theorem loadFileModule_isSome (hc : Complete tree dir main archive) (tree' : Tree S Err)
    (dirA : List Text) : ∀ (fuel : Nat) (logicalDir : Text) (s : Specifier) (r : Run S) {file},
    Reached tree dir main (joinLogical logicalDir s.text) file → Fresh r → left archive r < fuel →
    (loadFileModule tree' (some archive) fuel dirA logicalDir s r).isSome
  | fuel + 1, logicalDir, s, r, file, hk, h, hfuel => by
    obtain ⟨chunk, hlookup, hfile⟩ := hc _ _ hk
    have hmem : joinLogical logicalDir s.text ∈ archive.map Prod.fst := by
      obtain ⟨before, after, he, -⟩ := List.lookup_eq_some_iff.mp hlookup
      simp [he]
    have hkept := loadFileModule_kept tree' (some archive) fuel
    rw [loadFileModule, Option.bind_some, hlookup]
    simp only [loadArchivedModule]
    split
    · rfl
    next hkey =>
      rw [runModuleBody]
      have hrun := runItems_isSome (hkept dirA
        (logicalParent (joinLogical logicalDir s.text))) chunk
        _ (h.enter hkey) fun t ht r' h' hsub =>
          loadFileModule_isSome hc tree' dirA fuel _ t r' (hk.next hfile ht) h'
            (Nat.lt_of_lt_of_le (left_lt hsub hkey hmem) (Nat.le_of_lt_succ hfuel))
      split
      · rfl
      · exact hrun

/-- Two chains of imports have one key just when they are one file, unless one comes back to where
the other is or their names are twins. A program without such chains runs from its archive, wherever
that is, just as from disk, and starts each module once. -/
theorem bundled_identity (dir : List Text) :
    (∀ (s : Specifier) (ss : List Specifier) (t : Specifier) (ts : List Specifier),
      (keyAlong [] s ss = keyAlong [] t ts ↔ fileAlong dir s ss = fileAlong dir t ts) ↔
        Apart dir (spotAlong .start s ss) (spotAlong .start t ts)) ∧
    ∀ (S Err : Type) (tree : Tree S Err) (entry : Text) (main : Chunk S Err)
      (buildFuel : Nat) (archive : List (Text × Chunk S Err)), tree (dir ++ [entry]) = some main →
      Straight tree dir entry main → compileArchive tree buildFuel dir entry = some archive →
      ∀ (tree' : Tree S Err) (dir' : List Text) (state : S),
        (∀ fuel, ResultsAgree tree dir main (runProgram tree' (some archive) fuel dir' main state)
          (runProgram tree none fuel dir main state)) ∧
        ∀ fuel, archive.length < fuel → ∃ x a d,
          runProgram tree' (some archive) fuel dir' main state = some (x, a) ∧
            runProgram tree none fuel dir main state = some (x, d) ∧
              a.state = d.state ∧ a.ran.Nodup ∧ d.ran.Nodup ∧
                List.Forall₂ (Same tree dir main) a.ran d.ran := by
  refine ⟨keys_agree_iff dir, ?_⟩
  intro S Err tree entry main buildFuel archive hmain hs hbuild tree' dir' state
  obtain ⟨seen, done, hbuilt⟩ := Built.run hmain hs buildFuel _ _ _ _ Built.start_queue hbuild
  have hc : Complete tree dir main archive := fun _ _ hk => hbuilt.lookup hmain hs hk
  have hagree : ∀ fuel, ResultsAgree tree dir main
      (runProgram tree' (some archive) fuel dir' main state)
      (runProgram tree none fuel dir main state) := fun fuel =>
    runItems_agree main (fun s hi a d h =>
      loadFileModule_agree hs hc tree' [] fuel dir' dir [] s a d (.first hi) h) _ _
      ⟨rfl, .nil, .nil⟩
  have hstart : Fresh (⟨[], [], state⟩ : Run S) := ⟨List.nodup_nil, nofun⟩
  refine ⟨hagree, fun fuel hfuel => ?_⟩
  have hsome : (runProgram tree' (some archive) fuel dir' main state).isSome :=
    runItems_isSome (loadFileModule_kept tree' (some archive) fuel dir' []) main _ hstart
      fun s hi r hr _ => loadFileModule_isSome hc tree' dir' fuel [] s r (.first hi) hr
        (Nat.lt_of_le_of_lt (List.countP_le_length.trans (List.length_map ..).le) hfuel)
  have hnodup : ∀ (tree : Tree S Err) archive dir x r,
      runProgram tree archive fuel dir main state = some (x, r) → r.ran.Nodup := by
    intro tree archive dir x r hr
    have hkept := runItems_kept (loadFileModule_kept tree archive fuel dir []) main _ hstart
    rw [show runItems _ _ _ = _ from hr] at hkept
    cases x with
    | ok => exact hkept.1.1
    | error => exact hkept
  have hboth := hagree fuel
  match ha : runProgram tree' (some archive) fuel dir' main state,
    hd : runProgram tree none fuel dir main state, hboth with
  | none, _, _ => rw [ha] at hsome; cases hsome
  | some (x, a), some (_, d), ⟨rfl, h⟩ =>
    exact ⟨x, a, d, rfl, rfl, h.state, hnodup _ _ _ _ _ ha, hnodup _ _ _ _ _ hd, h.ran⟩

def importA : Specifier :=
  ⟨['.', '/', 'a'], [], ['a'], by decide, by decide⟩

def importB : Specifier :=
  ⟨['.', '/', 'l', '/', 'b', '.', 'a', 's'], [.name ['l']], ['b', '.', 'a', 's'], by decide,
    by decide⟩

def importUp : Specifier :=
  ⟨['.', '.', '/', 'a'], [.up], ['a'], by decide, by decide⟩

def importBack : Specifier :=
  ⟨['.', '.', '/', 'p', '/', 'a'], [.up, .name ['p']], ['a'], by decide, by decide⟩

def sampleMain : Chunk Nat Empty := [.imp importA, .imp importB, .act fun n => .ok (2 * n)]

/-- An entry in `/p` that imports `a` and `l/b`, which imports `a` too. -/
def sampleTree : Tree Nat Empty := fun file =>
  if file = [['p'], ['m', '.', 'a', 's']] then some sampleMain
  else if file = [['p'], ['a', '.', 'a', 's']] then some [.act fun n => .ok (n + 1)]
  else if file = [['p'], ['l'], ['b', '.', 'a', 's']] then some [.imp importUp]
  else none

theorem sample_followed (h : Followed sampleTree [['p']] sampleMain s ss) :
    spotAlong .start s ss = (⟨0, []⟩, ['a']) ∨
      spotAlong .start s ss = (⟨0, [['l']]⟩, ['b', '.', 'a', 's']) := by
  induction h with
  | first hs =>
    simp only [sampleMain, List.mem_cons, Item.imp.injEq, reduceCtorEq, List.not_mem_nil, or_false]
      at hs
    obtain rfl | rfl := hs
    · exact .inl rfl
    · exact .inr rfl
  | @next ss chunk t _ hchunk ht ih =>
    have hfile := fileAlong_eq [['p']] .start s ss
    rw [Spot.place_start] at hfile
    rw [hfile] at hchunk
    rw [spotAlong_concat]
    obtain ih | ih := ih <;> rw [ih] at hchunk ⊢
    · have : chunk = [.act fun n => .ok (n + 1)] := (Option.some.inj hchunk).symm
      simp [this] at ht
    · have : chunk = [.imp importUp] := (Option.some.inj hchunk).symm
      rw [this, List.mem_singleton, Item.imp.injEq] at ht
      exact .inl (ht ▸ rfl)

theorem sample_straight : Straight sampleTree [['p']] ['m', '.', 'a', 's'] sampleMain where
  chains hs ht := by
    obtain hs | hs := sample_followed hs <;> obtain ht | ht := sample_followed ht <;>
      rw [hs, ht] <;> unfold Apart ComesBack <;> decide
  toEntry hs := by
    obtain hs | hs := sample_followed hs <;> rw [hs] <;> unfold Apart ComesBack <;> decide
  named := by unfold IsName; decide
  cased hs := by
    obtain hs | hs := sample_followed hs <;> rw [hs] <;> unfold Cased <;> decide

theorem bundled_identity_sample :
    ∃ archive, compileArchive sampleTree 9 [['p']] ['m', '.', 'a', 's'] = some archive ∧
      ∀ fuel, ResultsAgree sampleTree [['p']] sampleMain
        (runProgram (fun _ => none) (some archive) fuel [] sampleMain 3)
        (runProgram sampleTree none fuel [['p']] sampleMain 3) := by
  refine ⟨_, rfl, ?_⟩
  exact ((bundled_identity [['p']]).2 Nat Empty sampleTree ['m', '.', 'a', 's'] sampleMain 9 _ rfl
    sample_straight rfl (fun _ => none) [] 3).1

/-- From `/p`, `./a` and `../p/a` are one file under two keys. -/
theorem key_of_way_back : ¬ ∀ (dir : List Text) (s : Specifier) (ss : List Specifier)
    (t : Specifier)
    (ts : List Specifier),
    keyAlong [] s ss = keyAlong [] t ts ↔ fileAlong dir s ss = fileAlong dir t ts := fun h =>
  absurd ((h [['p']] importA [] importBack []).mpr (by decide)) (by decide)

end AScript.Bundle
