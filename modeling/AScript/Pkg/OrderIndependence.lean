import AScript.Pkg.Refusal

namespace AScript.Pkg

/-- Every name is required from one source only. -/
def SingleSource (M : Metadata) (rootDeps : Deps) : Prop :=
  ∀ name s s', Reach M rootDeps name s → Reach M rootDeps name s' → s = s'

structure Clean (M : Metadata) (rootDeps : Deps) : Prop where
  supported : ∀ name s, Reach M rootDeps name s → ∀ req, s ≠ .registry req
  fetched : ∀ name s, Reach M rootDeps name s → ∃ f, M s = .ok f
  versioned : ∀ name s, Reach M rootDeps name s → ∃ v, tagVersion name s = .ok v
  compatible : ∀ name s s', Reach M rootDeps name s → Reach M rootDeps name s' →
    Covers s s' ∨ Covers s' s
  acyclic : ∃ rank : String → Nat, ∀ name s f d, Reach M rootDeps name s → M s = .ok f →
    d ∈ f.deps → rank d.1 < rank name

structure IsTop (M : Metadata) (rootDeps : Deps) (name : String) (t : DepSource) : Prop where
  reach : Reach M rootDeps name t
  covers : ∀ s, Reach M rootDeps name s → Covers t s
  unique : ∀ s, Reach M rootDeps name s → Covers s t → s = t

inductive TopReach (M : Metadata) (rootDeps : Deps) : String → DepSource → Prop
  | root : (name, src) ∈ rootDeps → TopReach M rootDeps name src
  | dep : TopReach M rootDeps p t → IsTop M rootDeps p t → M t = .ok f → (name, src) ∈ f.deps →
    TopReach M rootDeps name src

/-- The highest requirement of every name is made by the root or by the highest version of another
package. -/
structure Settled (M : Metadata) (rootDeps : Deps) : Prop where
  clean : Clean M rootDeps
  top : ∀ name s, Reach M rootDeps name s → ∃ t, TopReach M rootDeps name t ∧
    IsTop M rootDeps name t

section Reorder

variable {M M' : Metadata} {rootDeps rootDeps' : Deps}

theorem reach_iff (hroot : rootDeps.Perm rootDeps') (hM : Reordered M M') :
    Reach M rootDeps name src ↔ Reach M' rootDeps' name src :=
  ⟨fun h => h.reorder hroot hM, fun h => h.reorder hroot.symm hM.symm⟩

theorem IsTop.reorder (h : IsTop M rootDeps name t) (hroot : rootDeps.Perm rootDeps')
    (hM : Reordered M M') : IsTop M' rootDeps' name t where
  reach := h.reach.reorder hroot hM
  covers s hs := h.covers s ((reach_iff hroot hM).mpr hs)
  unique s hs := h.unique s ((reach_iff hroot hM).mpr hs)

theorem TopReach.reorder (h : TopReach M rootDeps name t) (hroot : rootDeps.Perm rootDeps')
    (hM : Reordered M M') : TopReach M' rootDeps' name t := by
  induction h with
  | root hm => exact .root (hroot.mem_iff.mp hm)
  | @dep p t f name src _ htop hf hm ih =>
    rcases hM t with ⟨e, h1, -⟩ | ⟨f', deps, h1, h2, hp⟩
    · cases hf.symm.trans h1
    · cases hf.symm.trans h1
      exact .dep ih (htop.reorder hroot hM) h2 (hp.mem_iff.mp hm)

theorem Clean.reorder (h : Clean M rootDeps) (hroot : rootDeps.Perm rootDeps')
    (hM : Reordered M M') : Clean M' rootDeps' where
  supported name s hs := h.supported name s ((reach_iff hroot hM).mpr hs)
  fetched name s hs := by
    obtain ⟨f, hf⟩ := h.fetched name s ((reach_iff hroot hM).mpr hs)
    rcases hM s with ⟨e, h1, -⟩ | ⟨f', deps, -, h2, -⟩
    · cases hf.symm.trans h1
    · exact ⟨_, h2⟩
  versioned name s hs := h.versioned name s ((reach_iff hroot hM).mpr hs)
  compatible name s s' hs hs' :=
    h.compatible name s s' ((reach_iff hroot hM).mpr hs) ((reach_iff hroot hM).mpr hs')
  acyclic := by
    obtain ⟨rank, hrank⟩ := h.acyclic
    refine ⟨rank, fun name s f d hs hf hd => ?_⟩
    rcases hM s with ⟨e, -, h2⟩ | ⟨f', deps, h1, h2, hp⟩
    · cases hf.symm.trans h2
    · cases hf.symm.trans h2
      exact hrank name s f' d ((reach_iff hroot hM).mpr hs) h1 (hp.mem_iff.mpr hd)

theorem Settled.reorder (h : Settled M rootDeps) (hroot : rootDeps.Perm rootDeps')
    (hM : Reordered M M') : Settled M' rootDeps' where
  clean := h.clean.reorder hroot hM
  top name s hs := by
    obtain ⟨t, ht, htop⟩ := h.top name s ((reach_iff hroot hM).mpr hs)
    exact ⟨t, ht.reorder hroot hM, htop.reorder hroot hM⟩

end Reorder

section Clean

variable {M : Metadata} {rootDeps : Deps} {rootDir : String}

theorem select_clean (hf : M src = .ok f) (hv : tagVersion name src = .ok v) (sel : Selected) :
    ∃ r, select (fetchOf M) requirer base name src sel = .ok r := by
  rw [select, fetchOf, hf, hv]
  exact ⟨_, rfl⟩

theorem sameGitUrl_of_covers (h : Covers a b ∨ Covers b a) (ha : a.isTag = true) :
    sameGitUrl a b = true := by
  rcases h with h | h
  · cases h with
    | leaf hl => cases hl.symm.trans ha
    | tag => simp [sameGitUrl]
  · cases h with
    | leaf hl => cases hl.symm.trans ha
    | tag => simp [sameGitUrl]

theorem eq_or_tags_of_covers (h : Covers a b ∨ Covers b a) :
    a = b ∨ a.isTag = true ∧ b.isTag = true := by
  rcases h with h | h
  · cases h with
    | leaf => exact .inl rfl
    | tag => exact .inr ⟨rfl, rfl⟩
  · cases h with
    | leaf => exact .inl rfl
    | tag => exact .inr ⟨rfl, rfl⟩

theorem tagVersion_isTag (h : tagVersion name src = .ok v) (ht : src.isTag = true) :
    ∃ w, v = some w := by
  cases v with
  | none => cases (tagVersion_none h).symm.trans ht
  | some w => exact ⟨w, rfl⟩

theorem visit_clean (hc : Clean M rootDeps) (hsel : Sound (fetchOf M) rootDeps rootDir sel)
    (hreach : Reach M rootDeps name src) (hn : name ∉ stack) (requirer base : String) :
    ∃ r, visit (fetchOf M) requirer base stack name src sel = .ok r := by
  obtain ⟨f, hf⟩ := hc.fetched name src hreach
  obtain ⟨v, hv⟩ := hc.versioned name src hreach
  have hsupp := hc.supported name src hreach
  unfold visit
  split
  · exact absurd rfl (hsupp _)
  rw [if_neg hn]
  split
  · exact select_clean hf hv sel
  rename_i existing hex
  obtain ⟨b, hfe, hreq⟩ := hsel name existing hex
  have hcompat := hc.compatible name existing.source src hreq.reach hreach
  rw [hv]
  have hver := hfe.version
  simp only
  split
  · rename_i cur new hcur
    rw [hcur] at hver
    obtain ⟨url, t, hs, -⟩ := tagVersion_some hver
    rw [if_pos (sameGitUrl_of_covers hcompat (by rw [hs]; rfl))]
    split
    · exact select_clean hf hv sel
    · exact ⟨_, rfl⟩
  · rename_i hmix
    have heq : existing.source = src := by
      refine (eq_or_tags_of_covers hcompat).resolve_right ?_
      rintro ⟨htag, htag'⟩
      obtain ⟨cur, hcur⟩ := tagVersion_isTag hver htag
      obtain ⟨new, hnew⟩ := tagVersion_isTag hv htag'
      exact hmix cur new hcur hnew
    rw [if_pos heq]
    exact ⟨_, rfl⟩

theorem walk_clean {rank : String → Nat} (hc : Clean M rootDeps)
    (hrank : ∀ name s f d, Reach M rootDeps name s → M s = .ok f → d ∈ f.deps →
      rank d.1 < rank name)
    (hsel : Sound (fetchOf M) rootDeps rootDir sel)
    (hreq : ∀ d ∈ deps, Required (fetchOf M) rootDeps rootDir d.1 d.2 base)
    (hstack : ∀ d ∈ deps, ∀ q ∈ stack, rank d.1 < rank q) :
    walk (fetchOf M) fuel requirer deps base sel stack ≠ some (.error e) := by
  induction fuel generalizing requirer deps base sel stack with
  | zero => exact fun h => by cases h
  | succ fuel ih =>
    rw [walk]
    induction deps generalizing sel with
    | nil => exact fun h => by cases h
    | cons d rest ihr =>
      have hd := hreq d (.head _)
      have hrest := fun e he => hreq e (.tail _ he)
      have hrest' := fun e he => hstack e (.tail _ he)
      have hn : d.1 ∉ stack := fun hm => Nat.lt_irrefl _ (hstack d (.head _) d.1 hm)
      obtain ⟨⟨sel', child⟩, hv⟩ := visit_clean hc hsel hd.reach hn requirer base
      rw [walkDeps, hv]
      obtain ⟨-, ⟨f, rfl, he⟩ | ⟨rfl, rfl, -⟩⟩ := visit_ok hsel.allFetched hv
      · have hsound := he.sound hsel hd
        have hchild : ∀ e ∈ f.deps, Required (fetchOf M) rootDeps rootDir e.1 e.2 f.root :=
          fun e hm => .dep hd he.fetch_eq hm
        have hbelow : ∀ e ∈ f.deps, ∀ q ∈ stack ++ [d.1], rank e.1 < rank q := by
          intro e hm q hq
          have hlt := hrank d.1 d.2 f e hd.reach he.fetch_eq hm
          cases List.mem_append.mp hq with
          | inl hq => exact Nat.lt_trans hlt (hstack d (.head _) q hq)
          | inr hq => exact List.mem_singleton.mp hq ▸ hlt
        simp only
        split
        · exact fun h => by cases h
        · rename_i hw
          intro heq
          cases heq
          exact ih hsound hchild hbelow hw
        · rename_i hw
          exact ihr (walked (walk_sound hw) hsound hchild).sound hrest hrest'
      · exact ihr hsel hrest hrest'

theorem resolve_clean (hc : Clean M rootDeps) :
    resolve (fetchOf M) fuel rootDeps rootDir ≠ some (.error e) := by
  obtain ⟨rank, hrank⟩ := hc.acyclic
  rw [resolve]
  intro h
  obtain ⟨r, hr, hout⟩ := Option.map_eq_some_iff.mp h
  cases r with
  | error e' =>
    exact walk_clean hc hrank sound_empty (fun d hd => .root hd)
      (fun _ _ q hq => absurd hq List.not_mem_nil) hr
  | ok sel => cases hout

theorem satisfied_of_topReach (hw : Walked (fetchOf M) rootDeps rootDir [] rootDeps ∅ sel)
    (h : TopReach M rootDeps name t) : Satisfied sel name t := by
  induction h with
  | root hm => exact hw.satisfied _ hm
  | @dep p t f name src _ htop hf hm ih =>
    obtain ⟨s, hs, hc⟩ := ih
    obtain ⟨b, hfe, hreq⟩ := hw.sound p s hs
    obtain rfl := htop.unique s.source hreq.reach hc
    cases hf.symm.trans hfe.fetched
    rcases hw.closed p s hs with hempty | hdone
    · rw [Std.TreeMap.getElem?_emptyc] at hempty
      cases hempty
    · exact hdone _ hm

theorem selected_iff_top (hset : Settled M rootDeps)
    (hw : Walked (fetchOf M) rootDeps rootDir [] rootDeps ∅ sel) :
    (∃ s, sel[name]? = some s ∧ s.source = t) ↔ IsTop M rootDeps name t := by
  have htop (t' : DepSource) (ht : TopReach M rootDeps name t') (h : IsTop M rootDeps name t') :
      ∃ s, sel[name]? = some s ∧ s.source = t' := by
    obtain ⟨s, hs, hc⟩ := satisfied_of_topReach hw ht
    obtain ⟨b, -, hreq⟩ := hw.sound name s hs
    exact ⟨s, hs, h.unique s.source hreq.reach hc⟩
  constructor
  · rintro ⟨s, hs, rfl⟩
    obtain ⟨b, -, hreq⟩ := hw.sound name s hs
    obtain ⟨t', ht, h⟩ := hset.top name s.source hreq.reach
    obtain ⟨s', hs', rfl⟩ := htop t' ht h
    cases hs.symm.trans hs'
    exact h
  · intro h
    obtain ⟨t', ht, h'⟩ := hset.top name t h.reach
    obtain ⟨s, hs, rfl⟩ := htop t' ht h'
    exact ⟨s, hs, h.unique _ h'.reach (h'.covers t h.reach)⟩

theorem Path.reach (h : Path M rootDeps way name src) : Reach M rootDeps name src := by
  induction h with
  | root hm => exact .root hm
  | dep _ hf hm ih => exact .dep ih hf hm

theorem SingleSource.unbeaten (h : SingleSource M rootDeps) (hr : Reach M rootDeps name src) :
    Unbeaten M rootDeps name src :=
  fun _ s hp _ _ => h name s src hp.reach hr

theorem selected_of_reach (hsingle : SingleSource M rootDeps)
    (hw : Walked (fetchOf M) rootDeps rootDir [] rootDeps ∅ sel) (h : Reach M rootDeps name src) :
    ∃ s, sel[name]? = some s ∧ s.source = src := by
  have hexact {n : String} {want : DepSource} (hr : Reach M rootDeps n want)
      (hsat : Satisfied sel n want) : ∃ s, sel[n]? = some s ∧ s.source = want := by
    obtain ⟨s, hs, -⟩ := hsat
    obtain ⟨b, -, hreq⟩ := hw.sound n s hs
    exact ⟨s, hs, hsingle n _ _ hreq.reach hr⟩
  induction h with
  | root hm => exact hexact (.root hm) (hw.satisfied _ hm)
  | @dep p t f name src hp hf hm ih =>
    obtain ⟨s, hs, rfl⟩ := ih
    obtain ⟨b, hfe, hreq⟩ := hw.sound p s hs
    cases hf.symm.trans hfe.fetched
    refine hexact (.dep hp hf hm) ?_
    rcases hw.closed p s hs with hempty | hdone
    · rw [Std.TreeMap.getElem?_emptyc] at hempty
      cases hempty
    · exact hdone _ hm

theorem clean_of_single (hsingle : SingleSource M rootDeps)
    (h : resolve (fetchOf M) fuel rootDeps rootDir = some (.ok out)) : Clean M rootDeps := by
  obtain ⟨sel, rank, bound, hw, hord⟩ := resolve_ordered h
  have hsel (name : String) (src : DepSource) (hr : Reach M rootDeps name src) :
      ∃ s b, sel[name]? = some s ∧ s.source = src ∧ Fetched (fetchOf M) name b s := by
    obtain ⟨s, hs, hsrc⟩ := selected_of_reach hsingle hw hr
    obtain ⟨b, hfe, -⟩ := hw.sound name s hs
    exact ⟨s, b, hs, hsrc, hfe⟩
  constructor
  case acyclic =>
    refine ⟨rank, fun name src f d hr hf hd => ?_⟩
    obtain ⟨s, b, hs, rfl, hfe⟩ := hsel name src hr
    cases hf.symm.trans hfe.fetched
    exact (hord.deps name s hs List.not_mem_nil d hd
      (hsingle.unbeaten (.dep hr hfe.fetched hd))).2.2
  all_goals intro name src
  case supported =>
    intro hr
    obtain ⟨s, b, -, rfl, hfe⟩ := hsel name src hr
    exact hfe.supported
  case fetched =>
    intro hr
    obtain ⟨s, b, -, rfl, hfe⟩ := hsel name src hr
    exact ⟨s.fetched, hfe.fetched⟩
  case versioned =>
    intro hr
    obtain ⟨s, b, -, rfl, hfe⟩ := hsel name src hr
    exact ⟨s.version, hfe.version⟩
  case compatible =>
    intro src' hr hr'
    obtain rfl := hsingle name src src' hr hr'
    obtain ⟨s, b, -, rfl, hfe⟩ := hsel name src hr
    exact .inl (covers_refl hfe.version)

theorem settled_of_single (hsingle : SingleSource M rootDeps) (hc : Clean M rootDeps) :
    Settled M rootDeps := by
  have htop {name : String} {src : DepSource} (h : Reach M rootDeps name src) :
      IsTop M rootDeps name src := by
    obtain ⟨v, hv⟩ := hc.versioned name src h
    refine ⟨h, fun s hs => ?_, fun s hs _ => hsingle name s src hs h⟩
    obtain rfl := hsingle name s src hs h
    exact covers_refl hv
  refine ⟨hc, fun name src h => ⟨src, ?_, htop h⟩⟩
  induction h with
  | root hm => exact .root hm
  | dep hp hf hm ih => exact .dep ih (htop hp) hf hm

end Clean

def Resolved.key (r : Resolved) : String × DepSource × String := (r.name, r.source, r.resolved)

/-- Both orders are refused, or both select the same. -/
def SameOutcome : Except String (List Resolved) → Except String (List Resolved) → Prop
  | .ok out, .ok out' => ∀ k, k ∈ out.map Resolved.key ↔ k ∈ out'.map Resolved.key
  | .error _, .error _ => True
  | _, _ => False

section Orders

variable {M M' : Metadata} {rootDeps rootDeps' : Deps} {rootDir : String}

theorem SameOutcome.symm (h : SameOutcome r r') : SameOutcome r' r := by
  cases r <;> cases r'
  case ok.ok => exact fun k => (h k).symm
  all_goals exact h

theorem mem_key_iff (hset : Settled M rootDeps)
    (hw : Walked (fetchOf M) rootDeps rootDir [] rootDeps ∅ sel) :
    (name, t, resolved) ∈ sel.entries.map Resolved.key ↔
      IsTop M rootDeps name t ∧ ∃ f, M t = .ok f ∧ f.resolved = resolved := by
  rw [List.mem_map, ← selected_iff_top hset hw]
  constructor
  · rintro ⟨r, hr, hk⟩
    obtain ⟨n, s, hs, rfl⟩ := mem_entries.mp hr
    cases hk
    obtain ⟨b, hfe, -⟩ := hw.sound n s hs
    exact ⟨⟨s, hs, rfl⟩, s.fetched, hfe.fetched, rfl⟩
  · rintro ⟨⟨s, hs, rfl⟩, f, hf, rfl⟩
    obtain ⟨b, hfe, -⟩ := hw.sound name s hs
    cases hf.symm.trans hfe.fetched
    exact ⟨s.entry name, mem_entries.mpr ⟨name, s, hs, rfl⟩, rfl⟩

theorem settled_resolve (hset : Settled M rootDeps)
    (h : resolve (fetchOf M) fuel rootDeps rootDir = some r) :
    ∃ out, r = .ok out ∧ ∀ name t resolved, (name, t, resolved) ∈ out.map Resolved.key ↔
      IsTop M rootDeps name t ∧ ∃ f, M t = .ok f ∧ f.resolved = resolved := by
  cases r with
  | error e => exact absurd h (resolve_clean hset.clean)
  | ok out =>
    obtain ⟨sel, rfl, hw⟩ := resolve_ok h
    exact ⟨_, rfl, fun _ _ _ => mem_key_iff hset hw⟩

theorem resolved_reorder (hM : Reordered M M') :
    (∃ f, M t = .ok f ∧ f.resolved = resolved) → ∃ f, M' t = .ok f ∧ f.resolved = resolved := by
  rintro ⟨f, hf, rfl⟩
  rcases hM t with ⟨e, h1, -⟩ | ⟨f', deps, h1, h2, -⟩
  · cases hf.symm.trans h1
  · cases hf.symm.trans h1
    exact ⟨_, h2, rfl⟩

theorem settled_same (hset : Settled M rootDeps) (hroot : rootDeps.Perm rootDeps')
    (hM : Reordered M M') (h : resolve (fetchOf M) fuel rootDeps rootDir = some r)
    (h' : resolve (fetchOf M') fuel' rootDeps' rootDir' = some r') : SameOutcome r r' := by
  obtain ⟨out, rfl, hout⟩ := settled_resolve hset h
  obtain ⟨out', rfl, hout'⟩ := settled_resolve (hset.reorder hroot hM) h'
  rintro ⟨name, t, resolved⟩
  rw [hout, hout']
  exact and_congr ⟨fun h => h.reorder hroot hM, fun h => h.reorder hroot.symm hM.symm⟩
    ⟨resolved_reorder hM, resolved_reorder hM.symm⟩

theorem settled_of_ok (hsingle : SingleSource M rootDeps)
    (h : resolve (fetchOf M) fuel rootDeps rootDir = some (.ok out)) : Settled M rootDeps :=
  settled_of_single hsingle (clean_of_single hsingle h)

theorem single_same (hsingle : SingleSource M rootDeps) (hroot : rootDeps.Perm rootDeps')
    (hM : Reordered M M') (h : resolve (fetchOf M) fuel rootDeps rootDir = some r)
    (h' : resolve (fetchOf M') fuel' rootDeps' rootDir' = some r') : SameOutcome r r' := by
  have hsingle' : SingleSource M' rootDeps' := fun name s s' hs hs' =>
    hsingle name s s' ((reach_iff hroot hM).mpr hs) ((reach_iff hroot hM).mpr hs')
  cases r with
  | ok out => exact settled_same (settled_of_ok hsingle h) hroot hM h h'
  | error e =>
    cases r' with
    | error e' => exact trivial
    | ok out =>
      exact (settled_same (settled_of_ok hsingle' h') hroot.symm hM.symm h' h).symm

theorem refused_same (href : Refused M rootDeps) (hroot : rootDeps.Perm rootDeps')
    (hM : Reordered M M') (h : resolve (fetchOf M) fuel rootDeps rootDir = some r)
    (h' : resolve (fetchOf M') fuel' rootDeps' rootDir' = some r') : SameOutcome r r' := by
  cases r with
  | ok out => exact absurd h (resolve_refused href)
  | error e =>
    cases r' with
    | ok out => exact absurd h' (resolve_refused (href.reorder hroot hM))
    | error e' => exact trivial

/-- Two orders of one graph come out alike if every name has one source, if the graph cannot be
refused and its highest requirements do not hang on versions that lose, or if a requirement that
every order reads cannot be met. -/
theorem resolve_order_independent {names : List String}
    (hfin : ∀ name src, Reach M rootDeps name src → name ∈ names)
    (hroot : rootDeps.Perm rootDeps') (hM : Reordered M M')
    (h : SingleSource M rootDeps ∨ Settled M rootDeps ∨ Refused M rootDeps) :
    ∃ n r r', (∀ fuel ≥ n, resolve (fetchOf M) fuel rootDeps rootDir = some r ∧
      resolve (fetchOf M') fuel rootDeps' rootDir = some r') ∧ SameOutcome r r' := by
  have hfin' : ∀ name src b, Required (fetchOf M) rootDeps rootDir name src b → name ∈ names :=
    fun name src _ hr => hfin name src hr.reach
  have hfin₂ : ∀ name src b, Required (fetchOf M') rootDeps' rootDir name src b → name ∈ names :=
    fun name src _ hr => hfin name src ((reach_iff hroot hM).mpr hr.reach)
  obtain ⟨r, hr⟩ := resolve_total hfin'
  obtain ⟨r', hr'⟩ := resolve_total hfin₂
  refine ⟨_, r, r', fun fuel hle => ⟨resolve_le hr hle, resolve_le hr' hle⟩, ?_⟩
  rcases h with hsingle | hset | href
  · exact single_same hsingle hroot hM hr hr'
  · exact settled_same hset hroot hM hr hr'
  · exact refused_same href hroot hM hr hr'

end Orders

/-- Two packages, one needing the other. -/
def pairMeta : Metadata
  | .path "a" => .ok ⟨"a", none, none, "/app/a", [("b", .path "b")]⟩
  | .path "b" => .ok ⟨"b", none, none, "/app/b", []⟩
  | _ => .error "no such package"

def pairRoot : Deps := [("a", .path "a"), ("b", .path "b")]

theorem pair_reach (h : Reach pairMeta pairRoot name src) :
    src = .path name ∧ name ∈ ["a", "b"] := by
  induction h with
  | root hm =>
    simp only [pairRoot, List.mem_cons, Prod.mk.injEq, List.not_mem_nil, or_false] at hm
    rcases hm with ⟨rfl, rfl⟩ | ⟨rfl, rfl⟩ <;> simp
  | dep _ hf hm _ =>
    unfold pairMeta at hf
    split at hf <;> cases hf
    · cases List.mem_singleton.mp hm
      simp
    · cases hm

theorem resolve_order_independent_pair :
    ∃ n r r', (∀ fuel ≥ n, resolve (fetchOf pairMeta) fuel pairRoot "/app" = some r ∧
      resolve (fetchOf pairMeta) fuel pairRoot.reverse "/app" = some r') ∧ SameOutcome r r' := by
  refine resolve_order_independent (fun _ _ h => (pair_reach h).2) (.swap _ _ _) (fun src => ?_)
    (.inl fun name s s' h h' => (pair_reach h).1.trans (pair_reach h').1.symm)
  cases h : pairMeta src with
  | error e => exact .inl ⟨e, rfl, rfl⟩
  | ok f => exact .inr ⟨f, f.deps, rfl, rfl, .rfl⟩

def upgradeMeta : Metadata := fun src => .ok ⟨describe src, none, none, "/store", upgradeDeps src⟩

/-- Reading the requirement of `a` before or after the package that supersedes it decides whether
`c` is selected. -/
theorem resolve_order_dependent :
    upgradeRoot.Perm upgradeRoot.reverse ∧
      ∃ out out', resolve (fetchOf upgradeMeta) 4 upgradeRoot "/app" = some (.ok out) ∧
        resolve (fetchOf upgradeMeta) 4 upgradeRoot.reverse "/app" = some (.ok out') ∧
        ¬SameOutcome (.ok out) (.ok out') := by
  have hc : ("c", DepSource.git "https://x/c" (.tag "1.0.0"), "git https://x/c@1.0.0") ∈
      (upgradeOut.map fun r => { r with root := "/store" }).map Resolved.key := by decide
  refine ⟨.swap _ _ _, upgradeOut.map fun r => { r with root := "/store" },
    (upgradeOut.take 2).map fun r => { r with root := "/store" }, by decide +kernel,
    by decide +kernel, fun h => ?_⟩
  exact absurd ((h _).mp hc) (by decide)

end AScript.Pkg
