import AScript.Pkg.Resolve

namespace AScript.Pkg

namespace Version

theorem lt_irrefl (a : Version) : ¬a < a := by
  show ¬lt a a
  unfold lt
  omega

theorem lt_trans {a b c : Version} (h : a < b) (h' : b < c) : a < c := by
  change lt a b at h
  change lt b c at h'
  show lt a c
  unfold lt at *
  omega

theorem lt_trichotomy (a b : Version) : a < b ∨ a = b ∨ b < a := by
  obtain ⟨a1, a2, a3⟩ := a
  obtain ⟨b1, b2, b3⟩ := b
  show lt _ _ ∨ _ ∨ lt _ _
  simp only [lt, Version.mk.injEq]
  omega

theorem not_lt_trans {a b c : Version} (h : ¬b < a) (h' : ¬c < b) : ¬c < a := by
  intro hca
  rcases lt_trichotomy b c with hbc | rfl | hcb
  · exact h (lt_trans hbc hca)
  · exact h hca
  · exact h' hcb

end Version

def DepSource.isTag : DepSource → Bool
  | git _ (.tag _) => true
  | _ => false

inductive Covers : DepSource → DepSource → Prop
  | leaf : src.isTag = false → Covers src src
  | tag : Version.parse t = .ok v → Version.parse t' = .ok v' → ¬v' < v →
    Covers (.git url (.tag t')) (.git url (.tag t))

theorem Covers.trans (h : Covers a b) (h' : Covers b c) : Covers a c := by
  cases h with
  | leaf hl => exact h'
  | tag hb ha hle =>
    cases h' with
    | leaf hl => cases hl
    | tag hc hb' hle' =>
      cases hb.symm.trans hb'
      exact .tag hc ha (Version.not_lt_trans hle' hle)

theorem Covers.eq_of_leaf (h : Covers a b) (hl : b.isTag = false) : a = b := by
  cases h with
  | leaf => rfl
  | tag => cases hl

theorem covers_refl (h : tagVersion name src = .ok v) : Covers src src := by
  cases hs : src.isTag with
  | false => exact .leaf hs
  | true =>
    match src, hs with
    | .git url (.tag t), _ =>
      rw [tagVersion] at h
      split at h
      · exact .tag ‹_› ‹_› (Version.lt_irrefl _)
      · cases h

def Selected.sourceOf (sel : Selected) (name : String) : Option DepSource :=
  sel[name]?.map Selection.source

def Satisfied (sel : Selected) (name : String) (src : DepSource) : Prop :=
  ∃ s, sel[name]? = some s ∧ Covers s.source src

def Grows (sel sel' : Selected) : Prop :=
  ∀ name s, sel[name]? = some s → Satisfied sel' name s.source

structure Fetched (fetch : DepFetcher) (name base : String) (s : Selection) : Prop where
  fetched : fetch name s.source base = .ok s.fetched
  version : tagVersion name s.source = .ok s.version
  supported : ∀ req, s.source ≠ .registry req

theorem Satisfied.mono (h : Satisfied sel name src) (hg : Grows sel sel') :
    Satisfied sel' name src := by
  obtain ⟨s, hs, hc⟩ := h
  obtain ⟨s', hs', hc'⟩ := hg name s hs
  exact ⟨s', hs', hc'.trans hc⟩

theorem Grows.trans (h : Grows a b) (h' : Grows b c) : Grows a c :=
  fun name s hs => (h name s hs).mono h'

theorem getElem?_insert (sel : Selected) (name n : String) (s : Selection) :
    (sel.insert name s)[n]? = if name = n then some s else sel[n]? := by
  rw [Std.TreeMap.getElem?_insert]
  simp

structure Entered (fetch : DepFetcher) (base name : String) (src : DepSource) (sel sel' : Selected)
    (f : FetchedDep) : Prop where
  selection : ∃ s, sel' = sel.insert name s ∧ Fetched fetch name base s ∧ s.source = src ∧
    s.fetched = f
  covers : ∀ s, sel[name]? = some s → Covers src s.source ∧ ¬Covers s.source src

def AllFetched (fetch : DepFetcher) (sel : Selected) : Prop :=
  ∀ name s, sel[name]? = some s → ∃ base, Fetched fetch name base s

theorem select_ok (h : select fetch requirer base name src sel = .ok (sel', child))
    (hreg : ∀ req, src ≠ .registry req)
    (hc : ∀ s, sel[name]? = some s → Covers src s.source ∧ ¬Covers s.source src) :
    ∃ f, child = some f ∧ Entered fetch base name src sel sel' f := by
  rw [select] at h
  cases hf : fetch name src base with
  | error e =>
    rw [hf] at h
    cases h
  | ok f =>
    cases hv : tagVersion name src with
    | error e =>
      rw [hf, hv] at h
      cases h
    | ok v =>
      rw [hf, hv] at h
      cases h
      exact ⟨f, rfl, ⟨_, rfl, ⟨hf, hv, hreg⟩, rfl, rfl⟩, hc⟩

theorem tagVersion_some (h : tagVersion name src = .ok (some v)) :
    ∃ url t, src = .git url (.tag t) ∧ Version.parse t = .ok v := by
  unfold tagVersion at h
  split at h
  · split at h
    · cases h
      exact ⟨_, _, rfl, ‹_›⟩
    · cases h
  · cases h

theorem tagVersion_none : {src : DepSource} → tagVersion name src = .ok none → src.isTag = false
  | .git _ (.tag t), h => by
    rw [tagVersion] at h
    split at h <;> cases h
  | .git _ (.rev _), _ | .url _, _ | .path _, _ | .registry _, _ => rfl

theorem visit_ok (hsel : AllFetched fetch sel)
    (h : visit fetch requirer base stack name src sel = .ok (sel', child)) :
    name ∉ stack ∧ ((∃ f, child = some f ∧ Entered fetch base name src sel sel' f) ∨
      child = none ∧ sel' = sel ∧ Satisfied sel name src) := by
  unfold visit at h
  split at h
  · cases h
  rename_i hreg
  split at h
  · cases h
  refine ⟨‹_›, ?_⟩
  split at h
  · rename_i hnone
    refine .inl (select_ok h (fun req hr => hreg req hr) fun s hs => ?_)
    rw [hnone] at hs
    cases hs
  rename_i existing hex
  obtain ⟨b, hfe⟩ := hsel name existing hex
  split at h
  · cases h
  rename_i newVersion hnew
  split at h
  · rename_i cur new hcur
    obtain ⟨url, t, rfl, ht⟩ := tagVersion_some hnew
    have hv := hfe.version
    rw [hcur] at hv
    obtain ⟨url', t', hs', ht'⟩ := tagVersion_some hv
    split at h
    · rename_i hurl
      rw [hs', sameGitUrl, decide_eq_true_eq] at hurl
      subst hurl
      split at h
      · rename_i hlt
        refine .inl (select_ok h (fun req hr => hreg req hr) fun s hs => ?_)
        cases hex.symm.trans hs
        rw [hs']
        refine ⟨.tag ht' ht fun hgt => Version.lt_irrefl _ (Version.lt_trans hlt hgt), ?_⟩
        intro hc
        cases hc with
        | leaf hl => cases hl
        | tag hv hv' hle =>
          cases ht.symm.trans hv
          cases ht'.symm.trans hv'
          exact hle hlt
      · rename_i hle
        cases h
        exact .inr ⟨rfl, rfl, existing, hex, hs' ▸ .tag ht ht' hle⟩
    · cases h
  · split at h
    · rename_i heq
      cases h
      subst heq
      exact .inr ⟨rfl, rfl, existing, hex, covers_refl hnew⟩
    · cases h

inductive Walk (fetch : DepFetcher) :
    String → String → List String → Deps → Selected → Selected → Prop
  | nil : Walk fetch requirer base stack [] sel sel
  | keep : visit fetch requirer base stack name src sel = .ok (sel', none) →
    Walk fetch requirer base stack rest sel' sel'' →
    Walk fetch requirer base stack ((name, src) :: rest) sel sel''
  | enter : visit fetch requirer base stack name src sel = .ok (sel', some f) →
    Walk fetch name f.root (stack ++ [name]) f.deps sel' sel'' →
    Walk fetch requirer base stack rest sel'' sel₃ →
    Walk fetch requirer base stack ((name, src) :: rest) sel sel₃

theorem walk_sound (h : walk fetch fuel requirer deps base sel stack = some (.ok sel')) :
    Walk fetch requirer base stack deps sel sel' := by
  induction fuel generalizing requirer deps base sel sel' stack with
  | zero => cases h
  | succ fuel ih =>
    rw [walk] at h
    induction deps generalizing sel with
    | nil =>
      cases h
      exact .nil
    | cons d rest ihr =>
      rw [walkDeps] at h
      split at h
      · cases h
      · exact .keep ‹_› (ihr h)
      · rename_i hv
        split at h
        · cases h
        · cases h
        · exact .enter hv (ih ‹_›) (ihr h)

/-- Reachable requirements, with the directory each is made from. -/
inductive Required (fetch : DepFetcher) (rootDeps : Deps) (rootDir : String) :
    String → DepSource → String → Prop
  | root : (name, src) ∈ rootDeps → Required fetch rootDeps rootDir name src rootDir
  | dep : Required fetch rootDeps rootDir p s b → fetch p s b = .ok f → (name, src) ∈ f.deps →
    Required fetch rootDeps rootDir name src f.root

section Walk

variable {fetch : DepFetcher} {rootDeps : Deps} {rootDir : String}

def Introduced (fetch : DepFetcher) (rootDeps : Deps) (rootDir : String) (sel : Selected)
    (name : String) : Prop :=
  ∃ p s b f src, Required fetch rootDeps rootDir p s b ∧ Satisfied sel p s ∧
    fetch p s b = .ok f ∧ (name, src) ∈ f.deps

theorem Introduced.mono (h : Introduced fetch rootDeps rootDir sel name) (hg : Grows sel sel') :
    Introduced fetch rootDeps rootDir sel' name := by
  obtain ⟨p, s, b, f, src, hreq, hsat, hf, hm⟩ := h
  exact ⟨p, s, b, f, src, hreq, hsat.mono hg, hf, hm⟩

def Sound (fetch : DepFetcher) (rootDeps : Deps) (rootDir : String) (sel : Selected) : Prop :=
  ∀ name s, sel[name]? = some s →
    ∃ b, Fetched fetch name b s ∧ Required fetch rootDeps rootDir name s.source b

structure Walked (fetch : DepFetcher) (rootDeps : Deps) (rootDir : String) (stack : List String)
    (deps : Deps) (sel sel' : Selected) : Prop where
  sound : Sound fetch rootDeps rootDir sel'
  grows : Grows sel sel'
  frame : ∀ name ∈ stack, sel'[name]? = sel[name]?
  closed : ∀ (name : String) (s : Selection), sel'[name]? = some s → sel[name]? = some s ∨
    ∀ d ∈ s.fetched.deps, Satisfied sel' d.1 d.2
  satisfied : ∀ d ∈ deps, Satisfied sel' d.1 d.2
  introduced : ∀ (name : String) (s : Selection), sel'[name]? = some s → sel[name]?.isSome ∨
    (∃ src, (name, src) ∈ deps) ∨ Introduced fetch rootDeps rootDir sel' name

theorem Sound.allFetched (h : Sound fetch rootDeps rootDir sel) : AllFetched fetch sel := by
  intro name s hs
  obtain ⟨b, hf, -⟩ := h name s hs
  exact ⟨b, hf⟩

theorem grows_refl (h : AllFetched fetch sel) : Grows sel sel := by
  intro name s hs
  obtain ⟨b, hf⟩ := h name s hs
  exact ⟨s, hs, covers_refl hf.version⟩

theorem Entered.sound (h : Entered fetch base name src sel sel' f)
    (hs : Sound fetch rootDeps rootDir sel)
    (hr : Required fetch rootDeps rootDir name src base) : Sound fetch rootDeps rootDir sel' := by
  obtain ⟨⟨s, rfl, hf, rfl, -⟩, -⟩ := h
  intro n s' hs'
  rw [getElem?_insert] at hs'
  split at hs'
  · subst name
    cases hs'
    exact ⟨base, hf, hr⟩
  · exact hs n s' hs'

theorem Entered.grows (h : Entered fetch base name src sel sel' f)
    (hs : AllFetched fetch sel) : Grows sel sel' := by
  obtain ⟨⟨s, rfl, hf, rfl, -⟩, hc⟩ := h
  intro n s' hs'
  by_cases hn : name = n
  · subst hn
    exact ⟨s, by rw [getElem?_insert, if_pos rfl], (hc s' hs').1⟩
  · obtain ⟨b, hf'⟩ := hs n s' hs'
    exact ⟨s', by rw [getElem?_insert, if_neg hn, hs'], covers_refl hf'.version⟩

theorem Entered.satisfied (h : Entered fetch base name src sel sel' f) :
    Satisfied sel' name src := by
  obtain ⟨⟨s, rfl, hf, rfl, -⟩, -⟩ := h
  exact ⟨s, by rw [getElem?_insert, if_pos rfl], covers_refl hf.version⟩

theorem Entered.fetch_eq (h : Entered fetch base name src sel sel' f) :
    fetch name src base = .ok f := by
  obtain ⟨⟨s, rfl, hf, rfl, rfl⟩, -⟩ := h
  exact hf.fetched

theorem Entered.getElem?_self (h : Entered fetch base name src sel sel' f) :
    ∃ s : Selection, sel'[name]? = some s ∧ s.source = src ∧ s.fetched = f := by
  obtain ⟨⟨s, rfl, -, hs, hf⟩, -⟩ := h
  exact ⟨s, by rw [getElem?_insert, if_pos rfl], hs, hf⟩

theorem Entered.getElem?_ne (h : Entered fetch base name src sel sel' f) (hn : name ≠ n) :
    sel'[n]? = sel[n]? := by
  obtain ⟨⟨s, rfl, -, -, -⟩, -⟩ := h
  rw [getElem?_insert, if_neg hn]

theorem Walked.nil (hs : Sound fetch rootDeps rootDir sel) :
    Walked fetch rootDeps rootDir stack [] sel sel where
  sound := hs
  grows := grows_refl hs.allFetched
  frame _ _ := rfl
  closed _ _ h := .inl h
  satisfied _ hd := nomatch hd
  introduced _ _ h := .inl (Option.isSome_of_mem h)

theorem Walked.keep (hsat : Satisfied sel name src)
    (h : Walked fetch rootDeps rootDir stack rest sel sel') :
    Walked fetch rootDeps rootDir stack ((name, src) :: rest) sel sel' where
  sound := h.sound
  grows := h.grows
  frame := h.frame
  closed := h.closed
  satisfied := List.forall_mem_cons.mpr ⟨hsat.mono h.grows, h.satisfied⟩
  introduced n s hs := (h.introduced n s hs).imp_right
    (Or.imp_left fun ⟨src', hm⟩ => ⟨src', .tail _ hm⟩)

theorem Walked.enter (hsel : Sound fetch rootDeps rootDir sel) (hn : name ∉ stack)
    (hreq : Required fetch rootDeps rootDir name src base)
    (he : Entered fetch base name src sel sel₁ f)
    (h : Walked fetch rootDeps rootDir (stack ++ [name]) f.deps sel₁ sel₂)
    (h' : Walked fetch rootDeps rootDir stack rest sel₂ sel₃) :
    Walked fetch rootDeps rootDir stack ((name, src) :: rest) sel sel₃ where
  sound := h'.sound
  grows := ((he.grows hsel.allFetched).trans h.grows).trans h'.grows
  frame n hm := by
    have hne : name ≠ n := fun heq => hn (heq ▸ hm)
    rw [h'.frame n hm, h.frame n (List.mem_append_left _ hm), he.getElem?_ne hne]
  closed n s hs := by
    rcases h'.closed n s hs with hs₂ | hdone
    · rcases h.closed n s hs₂ with hs₁ | hdone
      · by_cases hne : name = n
        · -- The package just selected: its own requirements were walked in between.
          subst hne
          obtain ⟨s', hs', -, hf⟩ := he.getElem?_self
          cases hs₁.symm.trans hs'
          exact .inr fun d hd => (h.satisfied d (hf ▸ hd)).mono h'.grows
        · exact .inl ((he.getElem?_ne hne).symm.trans hs₁)
      · exact .inr fun d hd => (hdone d hd).mono h'.grows
    · exact .inr hdone
  satisfied := List.forall_mem_cons.mpr
    ⟨(he.satisfied.mono h.grows).mono h'.grows, h'.satisfied⟩
  introduced n s hs := by
    rcases h'.introduced n s hs with hsome | ⟨src', hm⟩ | hintro
    · obtain ⟨s₂, hs₂⟩ := Option.isSome_iff_exists.mp hsome
      rcases h.introduced n s₂ hs₂ with hsome₁ | ⟨src', hm⟩ | hintro
      · by_cases hne : name = n
        · subst hne
          exact .inr (.inl ⟨src, .head _⟩)
        · rw [he.getElem?_ne hne] at hsome₁
          exact .inl hsome₁
      · exact .inr (.inr ⟨name, src, base, f, src', hreq,
          (he.satisfied.mono h.grows).mono h'.grows, he.fetch_eq, hm⟩)
      · exact .inr (.inr (hintro.mono h'.grows))
    · exact .inr (.inl ⟨src', .tail _ hm⟩)
    · exact .inr (.inr hintro)

theorem walked (h : Walk fetch requirer base stack deps sel sel')
    (hsel : Sound fetch rootDeps rootDir sel)
    (hreq : ∀ d ∈ deps, Required fetch rootDeps rootDir d.1 d.2 base) :
    Walked fetch rootDeps rootDir stack deps sel sel' := by
  induction h with
  | nil => exact .nil hsel
  | keep hv _ ih =>
    obtain ⟨-, ⟨f, hf, -⟩ | ⟨-, rfl, hsat⟩⟩ := visit_ok hsel.allFetched hv
    · cases hf
    · exact .keep hsat (ih hsel fun d hd => hreq d (.tail _ hd))
  | enter hv _ _ ih ih' =>
    obtain ⟨hn, ⟨f, hf, he⟩ | ⟨hf, -, -⟩⟩ := visit_ok hsel.allFetched hv
    · cases hf
      have hname := hreq _ (.head _)
      have h₁ := ih (he.sound hsel hname) fun d hd => .dep hname he.fetch_eq hd
      exact .enter hsel hn hname he h₁ (ih' h₁.sound fun d hd => hreq d (.tail _ hd))
    · cases hf

theorem walk_succ (h : walk fetch fuel requirer deps base sel stack = some r) :
    walk fetch (fuel + 1) requirer deps base sel stack = some r := by
  induction fuel generalizing requirer deps base sel stack r with
  | zero => cases h
  | succ fuel ih =>
    rw [walk] at h ⊢
    induction deps generalizing sel with
    | nil => exact h
    | cons d rest ihr =>
      rw [walkDeps] at h ⊢
      split at h
      · exact h
      · exact ihr h
      · split at h
        · cases h
        · rename_i hw
          rw [ih hw]
          exact h
        · rename_i hw
          rw [ih hw]
          exact ihr h

theorem walk_le (h : walk fetch fuel requirer deps base sel stack = some r) (hle : fuel ≤ fuel') :
    walk fetch fuel' requirer deps base sel stack = some r := by
  induction hle with
  | refl => exact h
  | step _ ih => exact walk_succ ih

theorem walk_total (hfin : ∀ name src b, Required fetch rootDeps rootDir name src b → name ∈ names)
    (hsel : Sound fetch rootDeps rootDir sel)
    (hreq : ∀ d ∈ deps, Required fetch rootDeps rootDir d.1 d.2 base)
    (hnd : stack.Nodup) (hsub : stack ⊆ names) (hfuel : names.length < fuel + stack.length) :
    ∃ r, walk fetch fuel requirer deps base sel stack = some r := by
  induction fuel generalizing requirer deps base sel stack with
  | zero =>
    have := hnd.length_le_of_subset hsub
    omega
  | succ fuel ih =>
    rw [walk]
    induction deps generalizing sel with
    | nil => exact ⟨_, rfl⟩
    | cons d rest ihr =>
      have hrest := fun e he => hreq e (.tail _ he)
      rw [walkDeps]
      split
      · exact ⟨_, rfl⟩
      · rename_i hv
        obtain ⟨-, ⟨f, hf, -⟩ | ⟨-, rfl, -⟩⟩ := visit_ok hsel.allFetched hv
        · cases hf
        · exact ihr hsel hrest
      · rename_i f hv
        obtain ⟨hn, ⟨f, hf, he⟩ | ⟨hf, -, -⟩⟩ := visit_ok hsel.allFetched hv
        case inr => cases hf
        cases hf
        have hname := hreq _ (.head _)
        have hsound := he.sound hsel hname
        have hchild : ∀ e ∈ f.deps, Required fetch rootDeps rootDir e.1 e.2 f.root :=
          fun e hm => .dep hname he.fetch_eq hm
        have hnd' : (stack ++ [d.1]).Nodup :=
          List.nodup_append.mpr ⟨hnd, List.pairwise_singleton _ _, fun a ha b hb hab =>
            hn (List.mem_singleton.mp hb ▸ hab ▸ ha)⟩
        have hsub' : stack ++ [d.1] ⊆ names :=
          List.append_subset.mpr ⟨hsub, by simpa using hfin _ _ _ hname⟩
        obtain ⟨r, hr⟩ := ih hsound hchild hnd' hsub'
          (by rw [List.length_append, List.length_singleton]; omega)
        rw [hr]
        cases r with
        | error e => exact ⟨_, rfl⟩
        | ok sel₂ =>
          exact ihr (walked (walk_sound hr) hsound hchild).sound hrest

end Walk

def Met (fetch : DepFetcher) (rootDeps : Deps) (rootDir : String) (out : List Resolved)
    (name : String) (src : DepSource) : Prop :=
  ∃ r ∈ out, r.name = name ∧ Covers r.source src ∧
    (src.isTag = false → ∃ b, Required fetch rootDeps rootDir name src b ∧
      (fetch name src b).map FetchedDep.root = .ok r.root)

/-- What a resolved set promises. -/
structure Resolution (fetch : DepFetcher) (rootDeps : Deps) (rootDir : String)
    (out : List Resolved) : Prop where
  distinct : (out.map Resolved.name).Nodup
  root : ∀ d ∈ rootDeps, Met fetch rootDeps rootDir out d.1 d.2
  packages : ∀ r ∈ out, ∃ b f, Required fetch rootDeps rootDir r.name r.source b ∧
    fetch r.name r.source b = .ok f ∧ r.root = f.root ∧ r.resolved = f.resolved ∧
      ∀ d ∈ f.deps, Met fetch rootDeps rootDir out d.1 d.2
  required : ∀ r ∈ out, (∃ src, (r.name, src) ∈ rootDeps) ∨
    ∃ p ∈ out, ∃ s b f src, Required fetch rootDeps rootDir p.name s b ∧ Covers p.source s ∧
      fetch p.name s b = .ok f ∧ (r.name, src) ∈ f.deps

section Resolve

variable {fetch : DepFetcher} {rootDeps : Deps} {rootDir : String} {sel : Selected}

def Selected.entries (sel : Selected) : List Resolved := sel.toList.map fun p => p.2.entry p.1

theorem mem_entries {sel : Selected} {r : Resolved} :
    r ∈ sel.entries ↔ ∃ (name : String) (s : Selection), sel[name]? = some s ∧
      s.entry name = r := by
  rw [Selected.entries, List.mem_map]
  constructor
  · rintro ⟨⟨name, s⟩, hm, rfl⟩
    exact ⟨name, s, Std.TreeMap.mem_toList_iff_getElem?_eq_some.mp hm, rfl⟩
  · rintro ⟨name, s, hs, rfl⟩
    exact ⟨(name, s), Std.TreeMap.mem_toList_iff_getElem?_eq_some.mpr hs, rfl⟩

theorem nodup_entries (sel : Selected) : (sel.entries.map Resolved.name).Nodup := by
  have hname : sel.entries.map Resolved.name = sel.toList.map Prod.fst := by
    rw [Selected.entries, List.map_map]
    rfl
  rw [hname, List.Nodup, List.pairwise_map]
  exact sel.distinct_keys_toList.imp fun h heq => h (by simp [heq])

theorem met (hs : Sound fetch rootDeps rootDir sel) (h : Satisfied sel name src) :
    Met fetch rootDeps rootDir sel.entries name src := by
  obtain ⟨s, hsel, hc⟩ := h
  refine ⟨s.entry name, mem_entries.mpr ⟨name, s, hsel, rfl⟩, rfl, hc, fun hleaf => ?_⟩
  obtain ⟨b, hf, hreq⟩ := hs name s hsel
  have hfetch := hf.fetched
  rw [hc.eq_of_leaf hleaf] at hfetch hreq
  refine ⟨b, hreq, ?_⟩
  rw [hfetch]
  rfl

theorem sound_empty : Sound fetch rootDeps rootDir ∅ := by
  intro name s hs
  rw [Std.TreeMap.getElem?_emptyc] at hs
  cases hs

theorem resolve_ok (h : resolve fetch fuel rootDeps rootDir = some (.ok out)) :
    ∃ sel, out = Selected.entries sel ∧ Walked fetch rootDeps rootDir [] rootDeps ∅ sel := by
  rw [resolve] at h
  obtain ⟨r, hr, hout⟩ := Option.map_eq_some_iff.mp h
  cases r with
  | error e => cases hout
  | ok sel =>
    cases hout
    exact ⟨sel, rfl, walked (walk_sound hr) sound_empty fun d hd => .root hd⟩

theorem resolution (h : Walked fetch rootDeps rootDir [] rootDeps ∅ sel) :
    Resolution fetch rootDeps rootDir sel.entries where
  distinct := nodup_entries sel
  root d hd := met h.sound (h.satisfied d hd)
  packages := by
    intro r hr
    obtain ⟨name, s, hs, rfl⟩ := mem_entries.mp hr
    obtain ⟨b, hf, hreq⟩ := h.sound name s hs
    refine ⟨b, s.fetched, hreq, hf.fetched, rfl, rfl, fun d hd => ?_⟩
    rcases h.closed name s hs with hempty | hdone
    · rw [Std.TreeMap.getElem?_emptyc] at hempty
      cases hempty
    · exact met h.sound (hdone d hd)
  required := by
    intro r hr
    obtain ⟨name, s, hs, rfl⟩ := mem_entries.mp hr
    rcases h.introduced name s hs with hempty | hroot | ⟨p, src, b, f, src', hreq, hsat, hf, hm⟩
    · rw [Std.TreeMap.getElem?_emptyc] at hempty
      cases hempty
    · exact .inl hroot
    · obtain ⟨sp, hsp, hc⟩ := hsat
      exact .inr ⟨sp.entry p, mem_entries.mpr ⟨p, sp, hsp, rfl⟩, src, b, f, src', hreq, hc, hf, hm⟩

theorem resolve_le (h : resolve fetch fuel rootDeps rootDir = some r) (hle : fuel ≤ fuel') :
    resolve fetch fuel' rootDeps rootDir = some r := by
  rw [resolve] at h ⊢
  obtain ⟨w, hw, hr⟩ := Option.map_eq_some_iff.mp h
  rw [walk_le hw hle, Option.map_some, hr]

theorem resolve_total {names : List String}
    (hfin : ∀ name src b, Required fetch rootDeps rootDir name src b → name ∈ names) :
    ∃ r, resolve fetch (names.length + 1) rootDeps rootDir = some r := by
  have hwalk : ∃ r, walk fetch (names.length + 1) "(root)" rootDeps rootDir ∅ [] = some r :=
    walk_total hfin sound_empty (fun d hd => .root hd) List.nodup_nil (List.nil_subset _) (by simp)
  obtain ⟨r, hr⟩ := hwalk
  exact ⟨_, by rw [resolve, hr, Option.map_some]⟩

/-- Every finite graph resolves or is refused, and what it resolves to is satisfying; packages are
there for the root or for a version, perhaps superseded, of another of them. -/
theorem resolve_satisfies {names : List String}
    (hfin : ∀ name src b, Required fetch rootDeps rootDir name src b → name ∈ names) :
    (∃ n r, ∀ fuel ≥ n, resolve fetch fuel rootDeps rootDir = some r) ∧
      ∀ fuel out, resolve fetch fuel rootDeps rootDir = some (.ok out) →
        Resolution fetch rootDeps rootDir out := by
  constructor
  · obtain ⟨r, hr⟩ := resolve_total hfin
    exact ⟨names.length + 1, r, fun fuel hle => resolve_le hr hle⟩
  · intro fuel out h
    obtain ⟨sel, rfl, hw⟩ := resolve_ok h
    exact resolution hw

end Resolve

/-- A first version that needs another package, and a second one that does not. -/
def upgradeDeps : DepSource → Deps
  | .git "https://x/a" (.tag "1.0.0") => [("c", .git "https://x/c" (.tag "1.0.0"))]
  | .git "https://x/b" (.tag "1.0.0") => [("a", .git "https://x/a" (.tag "2.0.0"))]
  | _ => []

def upgradeFetch : DepFetcher := fun name src _ =>
  .ok ⟨describe src, none, none, "/store/" ++ name, upgradeDeps src⟩

def upgradeRoot : Deps :=
  [("a", .git "https://x/a" (.tag "1.0.0")), ("b", .git "https://x/b" (.tag "1.0.0"))]

/-- One relative path, from two directories. -/
def pathFetch : DepFetcher
  | _, .path "a", _ => .ok ⟨"a", none, none, "/app/a", [("lib", .path "../lib")]⟩
  | _, .path "sub/b", _ => .ok ⟨"sub/b", none, none, "/app/sub/b", [("lib", .path "../lib")]⟩
  | _, .path "../lib", "/app/a" => .ok ⟨"../lib", none, none, "/app/lib", []⟩
  | _, .path "../lib", "/app/sub/b" => .ok ⟨"../lib", none, none, "/app/sub/lib", []⟩
  | _, _, _ => .error "no such package"

theorem upgrade_names (h : Required upgradeFetch upgradeRoot "/app" name src b) :
    name ∈ ["a", "b", "c"] := by
  cases h with
  | root hm =>
    simp only [upgradeRoot, List.mem_cons, Prod.mk.injEq, List.not_mem_nil, or_false] at hm
    rcases hm with ⟨rfl, -⟩ | ⟨rfl, -⟩ <;> decide
  | dep _ hf hm =>
    cases hf
    unfold upgradeDeps at hm
    split at hm
    · rw [(Prod.mk.inj (List.mem_singleton.mp hm)).1]
      decide
    · rw [(Prod.mk.inj (List.mem_singleton.mp hm)).1]
      decide
    · cases hm

def upgradeOut : List Resolved :=
  [⟨"a", .git "https://x/a" (.tag "2.0.0"), some "2.0.0", "git https://x/a@2.0.0", none, none,
    "/store/a"⟩,
    ⟨"b", .git "https://x/b" (.tag "1.0.0"), some "1.0.0", "git https://x/b@1.0.0", none, none,
      "/store/b"⟩,
    ⟨"c", .git "https://x/c" (.tag "1.0.0"), some "1.0.0", "git https://x/c@1.0.0", none, none,
      "/store/c"⟩]

theorem resolve_satisfies_upgrade :
    resolve upgradeFetch 4 upgradeRoot "/app" = some (.ok upgradeOut) ∧
      Resolution upgradeFetch upgradeRoot "/app" upgradeOut :=
  have h : resolve upgradeFetch 4 upgradeRoot "/app" = some (.ok upgradeOut) := by decide +kernel
  ⟨h, (resolve_satisfies fun _ _ _ => upgrade_names).2 4 _ h⟩

/-- A package stays that only a superseded version needed; and a path required from two
directories is resolved from one of them. -/
theorem resolve_stale :
    (resolve upgradeFetch 4 upgradeRoot "/app" = some (.ok upgradeOut) ∧
      ∃ r ∈ upgradeOut, r.name ∉ upgradeRoot.map Prod.fst ∧
        ∀ p ∈ upgradeOut, r.name ∉ (upgradeDeps p.source).map Prod.fst) ∧
    (∃ out, resolve pathFetch 4 [("a", .path "a"), ("b", .path "sub/b")] "/app" = some (.ok out) ∧
      (∃ p ∈ out, p.source = .path "sub/b" ∧ p.root = "/app/sub/b") ∧
      ∃ r ∈ out, r.name = "lib" ∧ r.root = "/app/lib" ∧
        (pathFetch "lib" r.source "/app/sub/b").map FetchedDep.root = .ok "/app/sub/lib") :=
  ⟨⟨by decide +kernel, by decide⟩,
    [⟨"a", .path "a", none, "a", none, none, "/app/a"⟩,
      ⟨"b", .path "sub/b", none, "sub/b", none, none, "/app/sub/b"⟩,
      ⟨"lib", .path "../lib", none, "../lib", none, none, "/app/lib"⟩],
    by decide +kernel, by decide, by decide⟩

end AScript.Pkg
