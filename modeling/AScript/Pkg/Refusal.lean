import AScript.Pkg.Satisfied
import Mathlib.Logic.Relation

namespace AScript.Pkg

/-- What a source holds, wherever it is required from and by whatever name. -/
abbrev Metadata := DepSource → Except String FetchedDep

def fetchOf (M : Metadata) : DepFetcher := fun _ src _ => M src

/-- The same packages, each with its requirements in some other order. -/
def Reordered (M M' : Metadata) : Prop := ∀ src,
  (∃ e, M src = .error e ∧ M' src = .error e) ∨
    ∃ f deps, M src = .ok f ∧ M' src = .ok { f with deps } ∧ f.deps.Perm deps

theorem Reordered.symm (h : Reordered M M') : Reordered M' M := by
  intro src
  rcases h src with ⟨e, h1, h2⟩ | ⟨f, deps, h1, h2, hp⟩
  · exact .inl ⟨e, h2, h1⟩
  · exact .inr ⟨{ f with deps }, f.deps, h2, h1, hp.symm⟩

/-- Reachable requirements. -/
inductive Reach (M : Metadata) (rootDeps : Deps) : String → DepSource → Prop
  | root : (name, src) ∈ rootDeps → Reach M rootDeps name src
  | dep : Reach M rootDeps p s → M s = .ok f → (name, src) ∈ f.deps → Reach M rootDeps name src

theorem Reach.reorder (h : Reach M rootDeps name src) (hroot : rootDeps.Perm rootDeps')
    (hM : Reordered M M') : Reach M' rootDeps' name src := by
  induction h with
  | root hm => exact .root (hroot.mem_iff.mp hm)
  | @dep p s f name src _ hf hm ih =>
    rcases hM s with ⟨e, h1, -⟩ | ⟨f', deps, h1, h2, hp⟩
    · cases hf.symm.trans h1
    · cases hf.symm.trans h1
      exact .dep ih h2 (hp.mem_iff.mp hm)

theorem Required.reach (h : Required (fetchOf M) rootDeps rootDir name src b) :
    Reach M rootDeps name src := by
  induction h with
  | root hm => exact .root hm
  | dep _ hf hm ih => exact .dep ih hf hm

inductive Path (M : Metadata) (rootDeps : Deps) : List String → String → DepSource → Prop
  | root : (name, src) ∈ rootDeps → Path M rootDeps [] name src
  | dep : Path M rootDeps way p s → M s = .ok f → (name, src) ∈ f.deps →
    Path M rootDeps (way ++ [p]) name src

def Unbeaten (M : Metadata) (rootDeps : Deps) (name : String) (t : DepSource) : Prop :=
  ∀ way s, Path M rootDeps way name s → (way ++ [name]).Nodup → Covers s t → s = t

theorem Covers.versioned (h : Covers a b) (name : String) : ∃ v, tagVersion name b = .ok v := by
  cases h with
  | leaf hl =>
    unfold tagVersion
    split
    · cases hl
    · exact ⟨none, rfl⟩
  | tag ht =>
    rw [tagVersion, ht]
    exact ⟨some _, rfl⟩

inductive Sure (M : Metadata) (rootDeps : Deps) : String → DepSource → Prop
  | root : (name, src) ∈ rootDeps → Sure M rootDeps name src
  | dep : Sure M rootDeps p t → Unbeaten M rootDeps p t → M t = .ok f → (name, src) ∈ f.deps →
    Sure M rootDeps name src

structure Needs (M : Metadata) (rootDeps : Deps) (p d : String × DepSource) : Prop where
  sure : Sure M rootDeps p.1 p.2
  unbeaten : Unbeaten M rootDeps p.1 p.2
  declares : ∃ f, M p.2 = .ok f ∧ d ∈ f.deps
  needed : Unbeaten M rootDeps d.1 d.2

/-- A requirement that is read in every order cannot be met: it needs a registry, its tag is no
version, nothing can be fetched for it, it conflicts with another, it leads back to itself, or
every way to it goes through what it requires. -/
inductive Refused (M : Metadata) (rootDeps : Deps) : Prop
  | registry (h : Sure M rootDeps name (.registry req))
  | unversioned (h : Sure M rootDeps name src) (hv : tagVersion name src = .error e)
  | unfetched (h : Sure M rootDeps name src) (hu : Unbeaten M rootDeps name src)
      (hf : M src = .error e)
  | conflict (h : Sure M rootDeps name s) (h' : Sure M rootDeps name s')
      (hc : ∀ t, Covers t s → ¬Covers t s')
  | cycle (h : Relation.TransGen (Needs M rootDeps) p p)
  | back (h : Sure M rootDeps p t) (hu : Unbeaten M rootDeps p t) (hf : M t = .ok f)
      (hd : (name, src) ∈ f.deps)
      (hway : ∀ way, Path M rootDeps way p t → (way ++ [p]).Nodup → name ∈ way ++ [p])

section Reorder

variable {M M' : Metadata} {rootDeps rootDeps' : Deps}

theorem Reordered.declares (hM : Reordered M M') (hf : M s = .ok f) (hd : d ∈ f.deps) :
    ∃ f', M' s = .ok f' ∧ d ∈ f'.deps := by
  rcases hM s with ⟨e, h1, -⟩ | ⟨f', deps, h1, h2, hp⟩
  · cases hf.symm.trans h1
  · cases hf.symm.trans h1
    exact ⟨_, h2, hp.mem_iff.mp hd⟩

theorem Path.reorder (h : Path M rootDeps way name src) (hroot : rootDeps.Perm rootDeps')
    (hM : Reordered M M') : Path M' rootDeps' way name src := by
  induction h with
  | root hm => exact .root (hroot.mem_iff.mp hm)
  | dep _ hf hm ih =>
    obtain ⟨f', hf', hm'⟩ := hM.declares hf hm
    exact .dep ih hf' hm'

theorem Unbeaten.reorder (h : Unbeaten M rootDeps name t) (hroot : rootDeps.Perm rootDeps')
    (hM : Reordered M M') : Unbeaten M' rootDeps' name t :=
  fun way s hp hn hc => h way s (hp.reorder hroot.symm hM.symm) hn hc

theorem Sure.reorder (h : Sure M rootDeps name src) (hroot : rootDeps.Perm rootDeps')
    (hM : Reordered M M') : Sure M' rootDeps' name src := by
  induction h with
  | root hm => exact .root (hroot.mem_iff.mp hm)
  | dep _ hu hf hm ih =>
    obtain ⟨f', hf', hm'⟩ := hM.declares hf hm
    exact .dep ih (hu.reorder hroot hM) hf' hm'

theorem Needs.reorder (h : Needs M rootDeps p d) (hroot : rootDeps.Perm rootDeps')
    (hM : Reordered M M') : Needs M' rootDeps' p d where
  sure := h.sure.reorder hroot hM
  unbeaten := h.unbeaten.reorder hroot hM
  declares := by
    obtain ⟨f, hf, hd⟩ := h.declares
    exact hM.declares hf hd
  needed := h.needed.reorder hroot hM

theorem Refused.reorder (h : Refused M rootDeps) (hroot : rootDeps.Perm rootDeps')
    (hM : Reordered M M') : Refused M' rootDeps' := by
  cases h with
  | registry h => exact .registry (h.reorder hroot hM)
  | unversioned h hv => exact .unversioned (h.reorder hroot hM) hv
  | unfetched h hu hf =>
    rcases hM _ with ⟨e, h1, h2⟩ | ⟨f', deps, h1, -, -⟩
    · exact .unfetched (h.reorder hroot hM) (hu.reorder hroot hM) h2
    · cases hf.symm.trans h1
  | conflict h h' hc => exact .conflict (h.reorder hroot hM) (h'.reorder hroot hM) hc
  | @cycle p h => exact .cycle (Relation.TransGen.mono (fun _ _ hn => hn.reorder hroot hM) p p h)
  | back h hu hf hd hway =>
    obtain ⟨f', hf', hd'⟩ := hM.declares hf hd
    exact .back (h.reorder hroot hM) (hu.reorder hroot hM) hf' hd' fun way hp =>
      hway way (hp.reorder hroot.symm hM.symm)

end Reorder

section Walk

variable {M : Metadata} {rootDeps : Deps} {rootDir : String}

structure Ordered (M : Metadata) (rootDeps : Deps) (sel : Selected) (stack : List String)
    (rank : String → Nat) (bound : Nat) : Prop where
  below : ∀ (name : String) (s : Selection), sel[name]? = some s → name ∉ stack → rank name < bound
  placed : ∀ (name : String) (s : Selection), sel[name]? = some s → name ∉ stack →
    ∃ way, Path M rootDeps way name s.source ∧ (way ++ [name]).Nodup ∧
      ∀ d ∈ s.fetched.deps, d.1 ∉ way ++ [name]
  deps : ∀ (name : String) (s : Selection), sel[name]? = some s → name ∉ stack →
    ∀ d ∈ s.fetched.deps, Unbeaten M rootDeps d.1 d.2 →
      sel.sourceOf d.1 = some d.2 ∧ d.1 ∉ stack ∧ rank d.1 < rank name

theorem sourceOf_eq {sel : Selected} :
    sel.sourceOf name = some src ↔ ∃ s, sel[name]? = some s ∧ s.source = src :=
  Option.map_eq_some_iff

theorem Ordered.push (h : Ordered M rootDeps sel stack rank bound)
    (he : Entered (fetchOf M) base name src sel sel' f) (hway : Path M rootDeps stack name src)
    (hnodup : (stack ++ [name]).Nodup) : Ordered M rootDeps sel' (stack ++ [name]) rank bound := by
  have hne {n : String} (hn : n ∉ stack ++ [name]) : name ≠ n ∧ n ∉ stack := by
    simp only [List.mem_append, List.mem_singleton, not_or] at hn
    exact ⟨fun heq => hn.2 heq.symm, hn.1⟩
  constructor
  · intro n s hs hn
    rw [he.getElem?_ne (hne hn).1] at hs
    exact h.below n s hs (hne hn).2
  · intro n s hs hn
    rw [he.getElem?_ne (hne hn).1] at hs
    exact h.placed n s hs (hne hn).2
  · intro n s hs hn d hd hu
    rw [he.getElem?_ne (hne hn).1] at hs
    obtain ⟨hsrc, hstack, hlt⟩ := h.deps n s hs (hne hn).2 d hd hu
    -- a requirement that is never beaten does not make way for the new source
    have hd' : name ≠ d.1 := by
      rintro rfl
      obtain ⟨sd, hsd, hsd'⟩ := sourceOf_eq.mp hsrc
      obtain ⟨hc, hnc⟩ := he.covers sd hsd
      rw [hsd'] at hc hnc
      have hsame := hu stack src hway hnodup hc
      rw [hsame] at hc hnc
      exact hnc hc
    refine ⟨?_, ?_, hlt⟩
    · rw [Selected.sourceOf, he.getElem?_ne hd']
      exact hsrc
    · simp only [List.mem_append, List.mem_singleton, not_or]
      exact ⟨hstack, fun heq => hd' heq.symm⟩

theorem Ordered.pop (h : Ordered M rootDeps sel (stack ++ [name]) rank bound)
    (hname : sel[name]? = some s) (hway : Path M rootDeps stack name s.source)
    (hnodup : (stack ++ [name]).Nodup) (hoff : ∀ d ∈ s.fetched.deps, d.1 ∉ stack ++ [name])
    (hdeps : ∀ d ∈ s.fetched.deps, Unbeaten M rootDeps d.1 d.2 → sel.sourceOf d.1 = some d.2) :
    Ordered M rootDeps sel stack (fun n => if n = name then bound else rank n) (bound + 1) := by
  have hout {n : String} (hn : n ∉ stack) (hne : n ≠ name) : n ∉ stack ++ [name] := by
    simp only [List.mem_append, List.mem_singleton, not_or]
    exact ⟨hn, hne⟩
  have hin {n : String} (hn : n ∉ stack ++ [name]) : n ∉ stack ∧ n ≠ name := by
    simpa only [List.mem_append, List.mem_singleton, not_or] using hn
  constructor
  · intro n s' hs' hn
    by_cases hne : n = name
    · simp [hne]
    · have hlt := h.below n s' hs' (hout hn hne)
      simp only [hne, if_false]
      omega
  · intro n s' hs' hn
    by_cases hne : n = name
    · subst hne
      cases hname.symm.trans hs'
      exact ⟨stack, hway, hnodup, hoff⟩
    · exact h.placed n s' hs' (hout hn hne)
  · intro n s' hs' hn d hd hu
    by_cases hne : n = name
    · subst hne
      cases hname.symm.trans hs'
      have hsrc := hdeps d hd hu
      obtain ⟨sd, hsd, -⟩ := sourceOf_eq.mp hsrc
      have hlt := h.below d.1 sd hsd (hoff d hd)
      exact ⟨hsrc, (hin (hoff d hd)).1, by simpa [(hin (hoff d hd)).2] using hlt⟩
    · obtain ⟨hsrc, hd', hlt⟩ := h.deps n s' hs' (hout hn hne) d hd hu
      exact ⟨hsrc, (hin hd').1, by simpa [(hin hd').2, hne] using hlt⟩

theorem Ordered.selected (h : Ordered M rootDeps sel stack rank bound)
    (hsat : Satisfied sel name src) (hn : name ∉ stack) (hu : Unbeaten M rootDeps name src) :
    sel.sourceOf name = some src := by
  obtain ⟨s, hs, hc⟩ := hsat
  obtain ⟨way, hway, hnodup, -⟩ := h.placed name s hs hn
  exact sourceOf_eq.mpr ⟨s, hs, hu way s.source hway hnodup hc⟩

theorem walk_ordered (h : Walk (fetchOf M) requirer base stack deps sel sel')
    (hsel : Sound (fetchOf M) rootDeps rootDir sel)
    (hreq : ∀ d ∈ deps, Required (fetchOf M) rootDeps rootDir d.1 d.2 base)
    (hway : ∀ d ∈ deps, Path M rootDeps stack d.1 d.2) (hnodup : stack.Nodup)
    (hord : Ordered M rootDeps sel stack rank bound) :
    (∃ rank' bound', Ordered M rootDeps sel' stack rank' bound') ∧ ∀ d ∈ deps, d.1 ∉ stack := by
  induction h generalizing rank bound with
  | nil => exact ⟨⟨rank, bound, hord⟩, fun d hd => nomatch hd⟩
  | keep hv hrest ih =>
    obtain ⟨hn, ⟨f, hf, -⟩ | ⟨-, rfl, -⟩⟩ := visit_ok hsel.allFetched hv
    · cases hf
    · obtain ⟨hord', hoff⟩ := ih hsel (fun d hd => hreq d (.tail _ hd))
        (fun d hd => hway d (.tail _ hd)) hnodup hord
      exact ⟨hord', List.forall_mem_cons.mpr ⟨hn, hoff⟩⟩
  | @enter requirer base stack name src sel sel₁ f sel₂ rest sel₃ hv hchild hrest ih ih' =>
    obtain ⟨hn, ⟨f, hf, he⟩ | ⟨hf, -, -⟩⟩ := visit_ok hsel.allFetched hv
    case inr => cases hf
    cases hf
    have hname := hreq _ (.head _)
    have hpath := hway _ (.head _)
    have hnodup' : (stack ++ [name]).Nodup :=
      List.nodup_append.mpr ⟨hnodup, List.pairwise_singleton _ _, fun a ha b hb hab =>
        hn (List.mem_singleton.mp hb ▸ hab ▸ ha)⟩
    have hsound := he.sound hsel hname
    have hdeps : ∀ d ∈ f.deps, Required (fetchOf M) rootDeps rootDir d.1 d.2 f.root :=
      fun d hd => .dep hname he.fetch_eq hd
    have hw := walked hchild hsound hdeps
    obtain ⟨⟨rank₁, bound₁, hord₁⟩, hoff⟩ := ih hsound hdeps
      (fun d hd => .dep hpath he.fetch_eq hd) hnodup' (hord.push he hpath hnodup')
    obtain ⟨s, hs, hsrc, hfs⟩ := he.getElem?_self
    have hs₂ : sel₂[name]? = some s := (hw.frame name (by simp)).trans hs
    have hord₂ := hord₁.pop hs₂ (hsrc ▸ hpath) hnodup' (hfs ▸ hoff) fun d hd hu =>
      hord₁.selected (hw.satisfied d (hfs ▸ hd)) (hoff d (hfs ▸ hd)) hu
    obtain ⟨hord₃, hoff'⟩ := ih' hw.sound (fun d hd => hreq d (.tail _ hd))
      (fun d hd => hway d (.tail _ hd)) hnodup hord₂
    exact ⟨hord₃, List.forall_mem_cons.mpr ⟨hn, hoff'⟩⟩

theorem resolve_ordered (h : resolve (fetchOf M) fuel rootDeps rootDir = some (.ok out)) :
    ∃ sel rank bound, Walked (fetchOf M) rootDeps rootDir [] rootDeps ∅ sel ∧
      Ordered M rootDeps sel [] rank bound := by
  rw [resolve] at h
  obtain ⟨r, hr, hout⟩ := Option.map_eq_some_iff.mp h
  cases r with
  | error e => cases hout
  | ok sel =>
    have hempty : Ordered M rootDeps ∅ [] (fun _ => 0) 0 := by
      constructor <;> intro name s hs <;> rw [Std.TreeMap.getElem?_emptyc] at hs <;> cases hs
    have hroot (d : String × DepSource) (hd : d ∈ rootDeps) :
        Required (fetchOf M) rootDeps rootDir d.1 d.2 rootDir := .root hd
    obtain ⟨⟨rank, bound, hord⟩, -⟩ := walk_ordered (walk_sound hr) sound_empty hroot
      (fun d hd => .root hd) List.nodup_nil hempty
    exact ⟨sel, rank, bound, walked (walk_sound hr) sound_empty hroot, hord⟩

variable {sel : Selected} {rank : String → Nat} {bound : Nat}

theorem Walked.deps_satisfied (hw : Walked (fetchOf M) rootDeps rootDir [] rootDeps ∅ sel)
    (hsrc : sel.sourceOf p = some t) (hf : M t = .ok f) (hd : d ∈ f.deps) :
    Satisfied sel d.1 d.2 := by
  obtain ⟨s, hs, rfl⟩ := sourceOf_eq.mp hsrc
  obtain ⟨b, hfe, -⟩ := hw.sound p s hs
  cases hf.symm.trans hfe.fetched
  rcases hw.closed p s hs with hempty | hdone
  · rw [Std.TreeMap.getElem?_emptyc] at hempty
    cases hempty
  · exact hdone d hd

theorem Sure.satisfied (h : Sure M rootDeps name src)
    (hw : Walked (fetchOf M) rootDeps rootDir [] rootDeps ∅ sel)
    (ho : Ordered M rootDeps sel [] rank bound) : Satisfied sel name src := by
  induction h with
  | root hm => exact hw.satisfied _ hm
  | dep _ hu hf hm ih =>
    exact hw.deps_satisfied (ho.selected ih List.not_mem_nil hu) hf hm

theorem Needs.rank_lt (h : Needs M rootDeps p d)
    (hw : Walked (fetchOf M) rootDeps rootDir [] rootDeps ∅ sel)
    (ho : Ordered M rootDeps sel [] rank bound) : rank d.1 < rank p.1 := by
  obtain ⟨f, hf, hd⟩ := h.declares
  obtain ⟨s, hs, hsrc⟩ := sourceOf_eq.mp
    (ho.selected (h.sure.satisfied hw ho) List.not_mem_nil h.unbeaten)
  obtain ⟨b, hfe, -⟩ := hw.sound p.1 s hs
  have hfetched := hfe.fetched
  rw [hsrc] at hfetched
  cases hf.symm.trans hfetched
  exact (ho.deps p.1 s hs List.not_mem_nil d hd h.needed).2.2

theorem resolve_refused (h : Refused M rootDeps) :
    resolve (fetchOf M) fuel rootDeps rootDir ≠ some (.ok out) := by
  intro hr
  obtain ⟨sel, rank, bound, hw, ho⟩ := resolve_ordered hr
  have hcover {name : String} {src : DepSource} (hs : Sure M rootDeps name src) :
      ∃ s b, sel[name]? = some s ∧ Covers s.source src ∧ Fetched (fetchOf M) name b s := by
    obtain ⟨s, hsel, hc⟩ := hs.satisfied hw ho
    obtain ⟨b, hfe, -⟩ := hw.sound name s hsel
    exact ⟨s, b, hsel, hc, hfe⟩
  cases h with
  | registry h =>
    obtain ⟨s, b, -, hc, hfe⟩ := hcover h
    exact hfe.supported _ (hc.eq_of_leaf rfl)
  | unversioned h hv =>
    obtain ⟨s, b, -, hc, -⟩ := hcover h
    obtain ⟨v, hv'⟩ := hc.versioned _
    cases hv.symm.trans hv'
  | unfetched h hu hf =>
    obtain ⟨s, hs, rfl⟩ := sourceOf_eq.mp (ho.selected (h.satisfied hw ho) List.not_mem_nil hu)
    obtain ⟨b, hfe, -⟩ := hw.sound _ s hs
    cases hf.symm.trans hfe.fetched
  | conflict h h' hc =>
    obtain ⟨s, b, hs, hcs, -⟩ := hcover h
    obtain ⟨s', b', hs', hcs', -⟩ := hcover h'
    cases hs.symm.trans hs'
    exact hc s.source hcs hcs'
  | @cycle p h =>
    have hlt : ∀ d, Relation.TransGen (Needs M rootDeps) p d → rank d.1 < rank p.1 := by
      intro d hd
      induction hd with
      | single hn => exact hn.rank_lt hw ho
      | tail _ hn ih => exact Nat.lt_trans (hn.rank_lt hw ho) ih
    exact Nat.lt_irrefl _ (hlt p h)
  | back h hu hf hd hway =>
    obtain ⟨s, hs, rfl⟩ := sourceOf_eq.mp (ho.selected (h.satisfied hw ho) List.not_mem_nil hu)
    obtain ⟨b, hfe, -⟩ := hw.sound _ s hs
    cases hf.symm.trans hfe.fetched
    obtain ⟨way, hpath, hnodup, hoff⟩ := ho.placed _ s hs List.not_mem_nil
    exact hoff _ hd (hway way hpath hnodup)

end Walk
end AScript.Pkg
