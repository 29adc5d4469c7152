import AScript.Bundle.Loader
import Mathlib.Data.List.Forall2

namespace AScript.Bundle

open AScript.Lib

variable {S Err : Type}

inductive Followed (tree : Tree S Err) (dir : List Text) (main : Chunk S Err) :
    Specifier → List Specifier → Prop
  | first : .imp s ∈ main → Followed tree dir main s []
  | next : Followed tree dir main s ss → tree (fileAlong dir s ss) = some chunk → .imp t ∈ chunk →
      Followed tree dir main s (ss ++ [t])

/-- An extension that is `.as` but for the case of its letters is `.as`. -/
def Cased (n : Text) : Prop :=
  (extensionOf n).map (·.map Char.toLower) = some ['a', 's'] → extensionOf n = some ['a', 's']

/-- No chain comes to another's file, or to the entry's, under another key, or to another file
under its key; and no extension is `.as` in other letters. -/
structure Straight (tree : Tree S Err) (dir : List Text) (entry : Text) (main : Chunk S Err) :
    Prop where
  chains : Followed tree dir main s ss → Followed tree dir main t ts →
    Apart dir (spotAlong .start s ss) (spotAlong .start t ts)
  toEntry : Followed tree dir main s ss → Apart dir (spotAlong .start s ss) (.start, entry)
  named : IsName entry ∧ (defaultAs entry = entry → sourceName entry = entry)
  cased : Followed tree dir main s ss → Cased (spotAlong .start s ss).2

def Reached (tree : Tree S Err) (dir : List Text) (main : Chunk S Err) (key : Text)
    (file : List Text) : Prop :=
  ∃ s ss, Followed tree dir main s ss ∧ key = keyAlong [] s ss ∧ file = fileAlong dir s ss

theorem keyAlong_concat (dir : Text) (s t : Specifier) : ∀ ss,
    keyAlong dir s (ss ++ [t]) = joinLogical (logicalParent (keyAlong dir s ss)) t.text
  | [] => rfl
  | u :: us => keyAlong_concat _ u t us

theorem fileAlong_concat (dir : List Text) (s t : Specifier) : ∀ ss,
    fileAlong dir s (ss ++ [t]) = moduleFile (fileAlong dir s ss).dropLast t.text
  | [] => rfl
  | u :: us => fileAlong_concat _ u t us

variable {tree : Tree S Err} {dir : List Text} {entry : Text} {main : Chunk S Err}

theorem Reached.first (h : .imp s ∈ main) :
    Reached tree dir main (joinLogical [] s.text) (moduleFile dir s.text) :=
  ⟨s, [], .first h, rfl, rfl⟩

theorem Reached.next (h : Reached tree dir main key file) (hfile : tree file = some chunk)
    (ht : .imp t ∈ chunk) : Reached tree dir main (joinLogical (logicalParent key) t.text)
      (moduleFile file.dropLast t.text) := by
  obtain ⟨s, ss, hf, rfl, rfl⟩ := h
  exact ⟨s, ss ++ [t], hf.next hfile ht, (keyAlong_concat [] s t ss).symm,
    (fileAlong_concat dir s t ss).symm⟩

theorem Straight.key_iff (h : Straight tree dir entry main) (hk : Reached tree dir main key file)
    (hk' : Reached tree dir main key' file') : key = key' ↔ file = file' := by
  obtain ⟨s, ss, hs, rfl, rfl⟩ := hk
  obtain ⟨t, ts, ht, rfl, rfl⟩ := hk'
  exact (keys_agree_iff dir s ss t ts).mpr (h.chains hs ht)

theorem entry_name_iff (hn : n ≠ []) (he : entry ≠ [])
    (hnamed : defaultAs entry = entry → sourceName entry = entry) (h : ¬ Twins n entry) :
    defaultAs n = entry ↔ sourceName n = entry := by
  have hagree := (names_agree_iff hn he).mpr h
  constructor
  · rintro rfl
    rw [hagree.mp (defaultAs_defaultAs n).symm, hnamed (defaultAs_defaultAs n)]
  · rintro rfl
    have hsource := sourceName_sourceName hn
    rw [hagree.mpr hsource.symm, defaultAs_sourceName]

theorem Straight.entry_iff (h : Straight tree dir entry main)
    (hk : Reached tree dir main key file) : key = entry ↔ file = dir ++ [entry] := by
  obtain ⟨s, ss, hs, rfl, rfl⟩ := hk
  obtain ⟨-, hback, htwins⟩ := h.toEntry hs
  obtain ⟨hentry, hdefault⟩ := h.named
  have hstart : Named .start := fun _ h => nomatch h
  obtain ⟨hnamed, hname⟩ := spotAlong_named hstart s ss
  have hfile := fileAlong_eq dir .start s ss
  rw [Spot.place_start] at hfile
  have hrender : render ⟨0, [] ++ [entry]⟩ = entry := by simp [render, words]
  have hkey := render_inj (named_concat hnamed (defaultAs_isName hname))
    (named_concat hstart hentry)
  rw [← keyAlong_eq hstart s ss] at hkey
  change keyAlong [] s ss = render ⟨0, [] ++ [entry]⟩ ↔ _ at hkey
  rw [hrender] at hkey
  rw [hkey, hfile, List.append_singleton_inj]
  generalize spotAlong .start s ss = c at *
  obtain ⟨⟨up, down⟩, n⟩ := c
  simp only [Spot.mk.injEq, List.append_singleton_inj]
  have hnames (hspot : (⟨up, down⟩ : Spot Text) = .start) : defaultAs n = entry ↔
      sourceName n = entry := entry_name_iff hname.1 hentry.1 hdefault (htwins hspot)
  constructor
  · rintro ⟨rfl, rfl, hn⟩
    exact ⟨Spot.place_start dir, (hnames rfl).mp hn⟩
  · rintro ⟨hplace, hn⟩
    have hdown : down = Spot.between dir up 0 :=
      ((Spot.place_eq_iff dir (s := .start) (t := ⟨up, down⟩) (Nat.zero_le up)).mp
        ((Spot.place_start dir).trans hplace.symm)).trans (List.append_nil _)
    have hup : up = 0 := by
      by_contra hup
      refine hback ⟨Nat.pos_of_ne_zero hup, hdown.trans (List.append_nil _).symm, ?_⟩
      rw [← hn, sourceName_sourceName hname.1]
    subst hup
    rw [Spot.between_self] at hdown
    subst hdown
    exact ⟨rfl, rfl, (hnames rfl).mpr hn⟩

theorem resolveModuleFile_eq (d : List Text) {s : Specifier} (hs : Cased s.name) :
    resolveModuleFile (resolveImport d s.text) = moduleFile d s.text := by
  have hn := s.name_isName.1
  have hstem : stemPath d s.text = resolveImport d s.text := by
    unfold resolveImport stemPath
    cases extension (join d s.text) <;> rfl
  rw [moduleFile, hstem, resolveModuleFile]
  split
  next hext =>
    have hsame : withExtension (resolveImport d s.text) ['a', 's'] = resolveImport d s.text := by
      rw [resolveImport, join_eq] at hext ⊢
      split at hext
      next hnone =>
        have hname : sourceName s.name ≠ [] := by simp [sourceName, dotAs]
        rw [if_pos hnone, withExtension_concat _ hn, withExtension_concat _ hname,
          sourceName_sourceName hn]
      next hsome =>
        rw [if_neg hsome]
        rw [extension, fileName_concat, Option.bind_some] at hext
        rw [withExtension_concat _ hn, sourceName_self (hs hext)]
    rw [hsame]
  · rfl

structure Built (tree : Tree S Err) (dir : List Text) (entry : Text) (main : Chunk S Err)
    (seen : List (List Text)) (done queue : List Pending) (modules : List (Text × Chunk S Err)) :
    Prop where
  compiled : List.Forall₂ (fun i m => m.1 = i.key ∧ tree i.path = some m.2) done modules
  seen_iff : ∀ p, p ∈ seen ↔ ∃ i ∈ done ++ queue, i.path = p
  items : ∀ i ∈ done ++ queue, i = ⟨dir ++ [entry], entry, []⟩ ∨
    Reached tree dir main i.key i.path ∧ i.logicalDir = logicalParent i.key
  start : dir ++ [entry] ∈ seen
  closed : ∀ i ∈ done, tree i.path = some chunk → .imp s ∈ chunk →
    moduleFile i.path.dropLast s.text ∈ seen

theorem enqueue_spec (item : Pending) : ∀ (items : Chunk S Err) (seen : List (List Text))
    (queue : List Pending), (∀ s, .imp s ∈ items → Cased s.name) →
    enqueue tree item items seen queue = some (seen', queue') →
    ∃ added, queue' = queue ++ added ∧ (∀ p, p ∈ seen' ↔ p ∈ seen ∨ ∃ i ∈ added, i.path = p) ∧
      (∀ i ∈ added, ∃ s, .imp s ∈ items ∧ i = ⟨moduleFile item.path.dropLast s.text,
        joinLogical item.logicalDir s.text, logicalParent (joinLogical item.logicalDir s.text)⟩) ∧
      ∀ s, .imp s ∈ items → moduleFile item.path.dropLast s.text ∈ seen'
  | [], seen, queue, _, h => by
    cases h
    exact ⟨[], (List.append_nil _).symm, by simp, nofun, nofun⟩
  | .act f :: items, seen, queue, hcased, h => by
    obtain ⟨added, hq, hseen, hadded, hclosed⟩ :=
      enqueue_spec item items seen queue (fun s hs => hcased s (.tail _ hs)) h
    refine ⟨added, hq, hseen, fun i hi => ?_, fun s hs => ?_⟩
    · obtain ⟨s, hs, he⟩ := hadded i hi
      exact ⟨s, .tail _ hs, he⟩
    · obtain hs | hs := List.mem_cons.mp hs
      · cases hs
      · exact hclosed s hs
  | .imp s :: items, seen, queue, hcased, h => by
    have hrest := fun t ht => hcased t (.tail _ ht)
    simp only [enqueue, resolveModuleFile_eq _ (hcased s (.head _))] at h
    split at h
    · cases h
    split at h
    next hmem =>
      obtain ⟨added, hq, hseen, hadded, hclosed⟩ := enqueue_spec item items seen queue hrest h
      refine ⟨added, hq, hseen, fun i hi => ?_, fun t ht => ?_⟩
      · obtain ⟨t, ht, he⟩ := hadded i hi
        exact ⟨t, .tail _ ht, he⟩
      · obtain ht | ht := List.mem_cons.mp ht
        · cases ht
          exact (hseen _).mpr (.inl hmem)
        · exact hclosed t ht
    next =>
      obtain ⟨added, hq, hseen, hadded, hclosed⟩ := enqueue_spec item items _ _ hrest h
      refine ⟨_ :: added, by rw [hq, List.append_assoc]; rfl, fun p => ?_, fun i hi => ?_,
        fun t ht => ?_⟩
      · rw [hseen, List.mem_append, List.mem_singleton, or_assoc, List.exists_mem_cons_iff]
        exact or_congr_right (or_congr_left eq_comm)
      · obtain rfl | hi := List.mem_cons.mp hi
        · exact ⟨s, .head items, rfl⟩
        · obtain ⟨t, ht, he⟩ := hadded i hi
          exact ⟨t, .tail _ ht, he⟩
      · obtain ht | ht := List.mem_cons.mp ht
        · cases ht
          exact (hseen _).mpr (.inl (List.mem_append_right _ (List.mem_singleton_self _)))
        · exact hclosed t ht

theorem Built.turn (hmain : tree (dir ++ [entry]) = some main)
    (hs : Straight tree dir entry main)
    (h : Built tree dir entry main seen done (item :: queue) modules)
    (hchunk : tree item.path = some chunk)
    (henq : enqueue tree item chunk seen queue = some (seen', queue')) :
    Built tree dir entry main seen' (done ++ [item]) queue' (modules ++ [(item.key, chunk)]) := by
  have hitems (added : List Pending) :
      done ++ [item] ++ (queue ++ added) = (done ++ item :: queue) ++ added := by simp
  have hitem := h.items item (by simp)
  have hcased : ∀ s, .imp s ∈ chunk → Cased s.name := by
    intro t ht
    obtain rfl | ⟨⟨s, ss, hf, -, hfile⟩, -⟩ := hitem
    · cases hmain.symm.trans hchunk
      exact hs.cased (.first ht)
    · have hname := hs.cased (hf.next (hfile ▸ hchunk) ht)
      rwa [spotAlong_concat] at hname
  obtain ⟨added, rfl, hseen, hadded, hclosed⟩ := enqueue_spec item chunk seen queue hcased henq
  refine ⟨?_, fun p => ?_, fun i hi => ?_, (hseen _).mpr (.inl h.start), fun i hi hc hs => ?_⟩
  · exact List.rel_append h.compiled (.cons ⟨rfl, hchunk⟩ .nil)
  · rw [hseen, h.seen_iff, hitems added]
    simp only [List.mem_append, or_and_right, exists_or]
  · rw [hitems added] at hi
    obtain hi | hi := List.mem_append.mp hi
    · exact h.items i hi
    · obtain ⟨s, hs, rfl⟩ := hadded i hi
      refine .inr ⟨?_, rfl⟩
      obtain rfl | ⟨hreached, hdir⟩ := hitem
      · cases hmain.symm.trans hchunk
        simpa using Reached.first hs
      · rw [hdir]
        exact hreached.next hchunk hs
  · obtain hi | hi := List.mem_append.mp hi
    · exact (hseen _).mpr (.inl (h.closed i hi hc hs))
    · cases List.mem_singleton.mp hi
      cases hchunk.symm.trans hc
      exact hclosed _ hs

theorem Built.run (hmain : tree (dir ++ [entry]) = some main)
    (hs : Straight tree dir entry main) : ∀ (fuel : Nat)
    (seen : List (List Text)) (done queue : List Pending) (modules : List (Text × Chunk S Err)),
    Built tree dir entry main seen done queue modules →
    compileQueue tree fuel seen queue modules = some archive →
    ∃ seen done, Built tree dir entry main seen done [] archive
  | fuel + 1, seen, done, [], modules, h, hr => by
    cases hr
    exact ⟨seen, done, h⟩
  | fuel + 1, seen, done, item :: queue, modules, h, hr => by
    obtain ⟨chunk, hchunk, hr⟩ := Option.bind_eq_some_iff.mp hr
    obtain ⟨⟨seen', queue'⟩, henq, hr⟩ := Option.bind_eq_some_iff.mp hr
    exact Built.run hmain hs fuel _ _ _ _ (h.turn hmain hs hchunk henq) hr

theorem Built.start_queue : Built tree dir entry main [dir ++ [entry]]
    [] [⟨dir ++ [entry], entry, []⟩] [] where
  compiled := .nil
  seen_iff p := by simp [eq_comm]
  items i hi := .inl (List.mem_singleton.mp hi)
  start := List.mem_singleton_self _
  closed := nofun

theorem Built.all_done (hmain : tree (dir ++ [entry]) = some main)
    (h : Built tree dir entry main seen done [] modules) (hk : Reached tree dir main key file) :
    ∃ i ∈ done, i.path = file := by
  have hseen : ∀ p, p ∈ seen ↔ ∃ i ∈ done, i.path = p := by simpa using h.seen_iff
  obtain ⟨s, ss, hf, -, rfl⟩ := hk
  induction hf with
  | first hs =>
    obtain ⟨i, hi, hpath⟩ := (hseen _).mp h.start
    have hmem := h.closed i hi (hpath ▸ hmain) hs
    rw [hpath, List.dropLast_concat] at hmem
    exact (hseen _).mp hmem
  | next _ hchunk ht ih =>
    obtain ⟨i, hi, hpath⟩ := ih
    have hmem := h.closed i hi (hpath ▸ hchunk) ht
    rw [hpath, ← fileAlong_concat] at hmem
    exact (hseen _).mp hmem

theorem lookup_of_forall₂ {done : List Pending} {modules : List (Text × Chunk S Err)}
    (h : List.Forall₂ (fun i m => m.1 = i.key ∧ tree i.path = some m.2) done modules)
    (hpath : ∀ i ∈ done, i.key = key → i.path = file) (hi : i ∈ done) (hkey : i.key = key) :
    ∃ chunk, modules.lookup key = some chunk ∧ tree file = some chunk := by
  induction h with
  | nil => cases hi
  | @cons j m done modules hj hrest ih =>
    obtain ⟨mkey, chunk⟩ := m
    obtain ⟨rfl, hchunk⟩ := hj
    by_cases hjk : j.key = key
    · refine ⟨chunk, by simp [hjk], ?_⟩
      rw [← hpath j (.head done) hjk, hchunk]
    · have hlookup : List.lookup key ((j.key, chunk) :: modules) = modules.lookup key := by
        simp [List.lookup_cons, beq_eq_false_iff_ne.mpr (Ne.symm hjk)]
      obtain rfl | hi := List.mem_cons.mp hi
      · exact absurd hkey hjk
      · rw [hlookup]
        exact ih (fun i hi => hpath i (.tail j hi)) hi

theorem Built.lookup (hmain : tree (dir ++ [entry]) = some main)
    (hs : Straight tree dir entry main) (h : Built tree dir entry main seen done [] modules)
    (hk : Reached tree dir main key file) :
    ∃ chunk, modules.lookup key = some chunk ∧ tree file = some chunk := by
  obtain ⟨i, hi, rfl⟩ := h.all_done hmain hk
  have hitems := h.items
  rw [List.append_nil] at hitems
  refine lookup_of_forall₂ h.compiled (fun j hj hjk => ?_) hi ?_
  · obtain rfl | ⟨hreached, -⟩ := hitems j hj
    · exact ((hs.entry_iff hk).mp hjk.symm).symm
    · exact (hs.key_iff hreached hk).mp hjk
  · obtain rfl | ⟨hreached, -⟩ := hitems i hi
    · exact ((hs.entry_iff hk).mpr rfl).symm
    · exact (hs.key_iff hreached hk).mpr rfl

end AScript.Bundle
