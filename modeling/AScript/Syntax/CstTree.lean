import AScript.Syntax.Balance

namespace AScript.Syntax

namespace Event

theorem tokenKinds_cons (e : Event) (es : List Event) :
    tokenKinds (e :: es) = tokenKinds [e] ++ tokenKinds es := by
  rw [← tokenKinds_append, List.singleton_append]

theorem tokenKinds_modify {f : Event → Event} (hf : ∀ e, tokenKinds [f e] = tokenKinds [e])
    (es : List Event) (m : Nat) : tokenKinds (es.modify m f) = tokenKinds es := by
  induction es generalizing m with
  | nil => rw [List.modify_nil]
  | cons e es ih =>
    cases m with
    | zero => rw [List.modify_zero_cons, tokenKinds_cons, hf, ← tokenKinds_cons]
    | succ m => rw [List.modify_succ_cons, tokenKinds_cons, ih, ← tokenKinds_cons]

theorem tokenKinds_setKind (kind : SyntaxKind) (e : Event) :
    tokenKinds [setKind kind e] = tokenKinds [e] := by cases e <;> rfl

theorem tokenKinds_setParent (parent : Nat) (e : Event) :
    tokenKinds [setParent parent e] = tokenKinds [e] := by cases e <;> rfl

theorem StartAt.append (h : StartAt es i) (fs : List Event) : StartAt (es ++ fs) i := by
  obtain ⟨kind, fp, hi⟩ := h
  exact ⟨kind, fp, by rw [List.getElem?_append_left (List.getElem?_eq_some_iff.mp hi).1, hi]⟩

theorem StartAt.modify {f : Event → Event}
    (hf : ∀ kind fp, ∃ kind' fp', f (.start kind fp) = .start kind' fp') (h : StartAt es i) :
    StartAt (es.modify m f) i := by
  obtain ⟨kind, fp, hi⟩ := h
  rw [StartAt, List.getElem?_modify, hi]
  by_cases hm : m = i
  · obtain ⟨kind', fp', h'⟩ := hf kind fp
    exact ⟨kind', fp', by simp [hm, h']⟩
  · exact ⟨kind, fp, by simp [hm]⟩

theorem Linked.append (h : Linked es) (he : ∀ kind j, e ≠ .start kind (some j)) :
    Linked (es ++ [e]) := by
  intro i kind j hi
  rcases Nat.lt_or_ge i es.length with hlt | hge
  · rw [List.getElem?_append_left hlt] at hi
    exact ⟨(h i kind j hi).1, (h i kind j hi).2.append _⟩
  · rw [List.getElem?_append_right hge] at hi
    exact absurd (List.mem_singleton.mp (List.mem_of_getElem? hi)).symm (he kind j)

theorem Linked.setKind (h : Linked es) (m : Nat) (kind : SyntaxKind) :
    Linked (es.modify m (setKind kind)) := by
  intro i kind' j hi
  have hs : ∀ {k}, StartAt es k → StartAt (es.modify m (Event.setKind kind)) k :=
    StartAt.modify fun _ fp => ⟨kind, fp, rfl⟩
  rw [List.getElem?_modify] at hi
  obtain ⟨ev, hev, he⟩ := Option.map_eq_some_iff.mp hi
  split at he
  · cases ev with
    | start k fp =>
      obtain rfl : fp = some j := by simpa [Event.setKind] using (Event.start.inj he).2
      exact ⟨(h i k j hev).1, hs (h i k j hev).2⟩
    | finish => cases he
    | token k => cases he
    | error message => cases he
  · subst he
    exact ⟨(h i kind' j hev).1, hs (h i kind' j hev).2⟩

theorem Linked.precede (h : Linked es) (hcm : cm < es.length) :
    Linked ((es ++ [Event.start .tombstone none]).modify cm (setParent es.length)) := by
  have h' : Linked (es ++ [Event.start .tombstone none]) := h.append nofun
  have hs : ∀ {k}, StartAt (es ++ [Event.start .tombstone none]) k →
      StartAt ((es ++ [Event.start .tombstone none]).modify cm (setParent es.length)) k :=
    StartAt.modify fun kind _ => ⟨kind, some es.length, rfl⟩
  intro i kind j hi
  rw [List.getElem?_modify] at hi
  obtain ⟨ev, hev, he⟩ := Option.map_eq_some_iff.mp hi
  split at he
  · next hcmi =>
    subst hcmi
    cases ev with
    | start k fp =>
      obtain ⟨-, hj⟩ := Event.start.inj he
      obtain rfl := Option.some.inj hj
      exact ⟨hcm, hs ⟨.tombstone, none, List.getElem?_concat_length⟩⟩
    | finish => cases he
    | token k => cases he
    | error message => cases he
  · subst he
    exact ⟨(h' i kind j hev).1, hs (h' i kind j hev).2⟩

end Event

open Event

theorem insertIdx_after (before after : List α) (a b : α) :
    (before ++ a :: after).insertIdx (before.length + 1) b = before ++ a :: b :: after := by
  induction before with
  | nil => rfl
  | cons c before ih =>
    rw [List.cons_append, List.length_cons, List.insertIdx_succ_cons, ih, List.cons_append]

theorem nontriviaFrom_append : nontriviaFrom i (ts ++ us) =
    nontriviaFrom i ts ++ nontriviaFrom (i + ts.length) us := by
  induction ts generalizing i with
  | nil => rfl
  | cons t ts ih =>
    rw [List.cons_append, nontriviaFrom, nontriviaFrom, ih, List.length_cons, Nat.add_assoc,
      Nat.add_comm 1]
    split <;> rfl

theorem length_nontriviaFrom : (nontriviaFrom i ts).length = (nontrivial ts).length := by
  induction ts generalizing i with
  | nil => rfl
  | cons t ts ih =>
    rw [nontriviaFrom, nontrivial, List.filter_cons]
    cases t.kind.isTrivia
    · exact congrArg (· + 1) ih
    · exact ih

theorem nontriviaFrom_succ : nontriviaFrom (i + 1) ts = (nontriviaFrom i ts).map (· + 1) := by
  induction ts generalizing i with
  | nil => rfl
  | cons t ts ih =>
    rw [nontriviaFrom, nontriviaFrom, ih]
    split <;> rfl

theorem lt_of_mem_nontriviaFrom (h : j ∈ nontriviaFrom i ts) : i ≤ j ∧ j < i + ts.length := by
  induction ts generalizing i with
  | nil => cases h
  | cons t ts ih =>
    rw [nontriviaFrom] at h
    rw [List.length_cons]
    split at h
    · have := ih h
      omega
    · rcases List.mem_cons.mp h with rfl | h
      · omega
      · have := ih h
        omega

theorem nontriviaFrom_insert (before after : List LexToken) (ht : t.kind.isTrivia = false)
    (hu : u.kind.isTrivia = false)
    (hv : v.kind.isTrivia = false) :
    ((nontriviaFrom 0 (before ++ t :: after)).map fun idx =>
        if before.length < idx then idx + 1 else idx).insertIdx
          ((nontriviaFrom 0 before).length + 1) (before.length + 1) =
      nontriviaFrom 0 (before ++ u :: v :: after) := by
  have hb : (nontriviaFrom 0 before).map (fun idx => if before.length < idx then idx + 1 else idx) =
      nontriviaFrom 0 before := by
    refine (List.map_congr_left fun j hj => ?_).trans (List.map_id _)
    have := lt_of_mem_nontriviaFrom hj
    rw [if_neg (by omega), id]
  have ha : (nontriviaFrom (before.length + 1) after).map
        (fun idx => if before.length < idx then idx + 1 else idx) =
      nontriviaFrom (before.length + 2) after := by
    refine (List.map_congr_left fun j hj => ?_).trans nontriviaFrom_succ.symm
    have := lt_of_mem_nontriviaFrom hj
    rw [if_pos (by omega)]
  rw [nontriviaFrom_append, nontriviaFrom_append, Nat.zero_add, nontriviaFrom, nontriviaFrom,
    nontriviaFrom, if_neg (by simp [ht]), if_neg (by simp [hu]), if_neg (by simp [hv]),
    List.map_append, List.map_cons, hb, ha, if_neg (Nat.lt_irrefl _), insertIdx_after]

theorem nontriviaFrom_get (h : (nontriviaFrom i ts)[n]? = some j) :
    ∃ before t after, ts = before ++ t :: after ∧ t.kind.isTrivia = false ∧
      j = i + before.length ∧ n = (nontriviaFrom i before).length := by
  induction ts generalizing i n with
  | nil => cases h
  | cons t ts ih =>
    rw [nontriviaFrom] at h
    cases ht : t.kind.isTrivia with
    | true =>
      simp only [ht, if_true] at h
      obtain ⟨before, u, after, rfl, hu, rfl, rfl⟩ := ih h
      refine ⟨t :: before, u, after, rfl, hu, by rw [List.length_cons]; omega, ?_⟩
      rw [nontriviaFrom, if_pos ht]
    | false =>
      simp only [ht, Bool.false_eq_true, if_false] at h
      cases n with
      | zero =>
        obtain rfl := Option.some.inj h
        exact ⟨[], t, ts, rfl, ht, rfl, rfl⟩
      | succ n =>
        obtain ⟨before, u, after, rfl, hu, rfl, rfl⟩ := ih h
        refine ⟨t :: before, u, after, rfl, hu, by rw [List.length_cons]; omega, ?_⟩
        rw [nontriviaFrom, if_neg (by simp [ht])]
        rfl

namespace Parser

structure Sound (src : List Char) (p : Parser) : Prop where
  whole : render p.tokens = src
  spelled : ∀ t ∈ p.tokens, t.Spelled
  nontrivia_eq : p.nontrivia = nontriviaFrom 0 p.tokens
  pos_le : p.pos ≤ p.nontrivia.length
  paired : List.Forall₂ Pairs (tokenKinds p.events) ((nontrivial p.tokens).take p.pos)
  linked : Linked p.events
  rooted : ∃ body, p.events = .start .tombstone none :: body ∧ Opens 0 body 0

theorem sound_start (lib : TextLib F) (src : List Char) : (new lib src).start.1.Sound src where
  whole := CstLexer.render_lexed lib src
  spelled _ := CstLexer.spelled_lexed
  nontrivia_eq := rfl
  pos_le := Nat.zero_le _
  paired := .nil
  linked := by
    intro i kind j hi
    have := List.mem_singleton.mp (List.mem_of_getElem? hi)
    cases this
  rooted := ⟨[], rfl, rfl⟩

theorem getElem?_middle (before after : List α) (a : α) :
    (before ++ a :: after)[before.length]? = some a := by
  rw [List.getElem?_append_right (Nat.le_refl _), Nat.sub_self, List.getElem?_cons_zero]

theorem Sound.cursor (h : Sound src p) (hp : p.atEnd = false) :
    ∃ before t after, p.tokens = before ++ t :: after ∧ t.kind.isTrivia = false ∧
      p.nontrivia[p.pos]? = some before.length ∧ p.pos = (nontriviaFrom 0 before).length ∧
      p.current = t.kind := by
  have hlt : p.pos < p.nontrivia.length := by simpa [atEnd] using hp
  obtain ⟨j, hget⟩ : ∃ j, p.nontrivia[p.pos]? = some j := ⟨_, List.getElem?_eq_getElem hlt⟩
  have hget' := hget
  rw [h.nontrivia_eq] at hget'
  obtain ⟨before, t, after, htok, ht, hj, hpos⟩ := nontriviaFrom_get hget'
  rw [Nat.zero_add] at hj
  subst hj
  refine ⟨before, t, after, htok, ht, hget, hpos, ?_⟩
  rw [current, hget, Option.bind_some, htok, getElem?_middle]
  rfl

theorem take_nontrivial (before : List LexToken) (after : List LexToken) :
    (nontrivial (before ++ after)).take (nontriviaFrom 0 before).length = nontrivial before := by
  rw [nontrivial_append, length_nontriviaFrom, List.take_left]

theorem Sound.bumpRemap (h : Sound src p) (hk : kind = p.current ∨ kind.staticText = none) :
    (p.bumpRemap kind).Sound src := by
  unfold Parser.bumpRemap
  cases hp : p.atEnd with
  | true => exact h
  | false =>
    simp only [Bool.false_eq_true, if_false]
    obtain ⟨before, t, after, htok, ht, hget, hpos, hcur⟩ := h.cursor hp
    have hlt : p.pos < p.nontrivia.length := by simpa [atEnd] using hp
    obtain ⟨body, hev, hopens⟩ := h.rooted
    refine ⟨h.whole, h.spelled, h.nontrivia_eq, hlt, ?_, h.linked.append nofun, ?_⟩
    · have hpair := h.paired
      have hnt : nontrivial (t :: after) = t :: nontrivial after :=
        List.filter_cons_of_pos (by simp [ht])
      rw [htok, hpos, take_nontrivial] at hpair
      simp only [emit]
      rw [tokenKinds_append, htok, hpos, nontrivial_append, length_nontriviaFrom,
        List.take_length_add_append, hnt]
      refine List.rel_append hpair (.cons ?_ .nil)
      show kind = t.kind ∨ kind.staticText = none
      rw [← hcur]
      exact hk
    · exact ⟨body ++ [.token kind], by simp [emit, hev],
        hopens.append (show Opens 0 [.token kind] 0 from rfl)⟩

theorem Sound.start (h : Sound src p) : p.start.1.Sound src := by
  obtain ⟨body, hev, hopens⟩ := h.rooted
  refine ⟨h.whole, h.spelled, h.nontrivia_eq, h.pos_le, ?_, h.linked.append nofun,
    body ++ [.start .tombstone none], by simp [Parser.start, emit, hev],
    hopens.append (show Opens 0 [.start .tombstone none] 0 from rfl)⟩
  simp only [Parser.start, emit, tokenKinds_append]
  simpa [tokenKinds] using h.paired

theorem Sound.error (h : Sound src p) : (p.error message).Sound src := by
  obtain ⟨body, hev, hopens⟩ := h.rooted
  refine ⟨h.whole, h.spelled, h.nontrivia_eq, h.pos_le, ?_, h.linked.append nofun,
    body ++ [.error message], by simp [Parser.error, emit, hev],
    hopens.append (show Opens 0 [.error message] 0 from rfl)⟩
  simp only [Parser.error, emit, tokenKinds_append]
  simpa [tokenKinds] using h.paired

theorem Sound.complete (h : Sound src p) (hm : marker ≠ 0) (hl : p.isLive marker = true)
    (hk : kind ≠ .tombstone) : (p.complete marker kind).Sound src := by
  obtain ⟨body, hev, hopens⟩ := h.rooted
  obtain ⟨m, rfl⟩ := Nat.exists_eq_succ_of_ne_zero hm
  have hlive : body[m]? = some (.start .tombstone none) := by
    have := beq_iff_eq.mp hl
    rwa [hev, List.getElem?_cons_succ] at this
  refine ⟨h.whole, h.spelled, h.nontrivia_eq, h.pos_le, ?_, (h.linked.setKind _ kind).append nofun,
    body.modify m (setKind kind) ++ [.finish], ?_, ?_⟩
  · simp only [Parser.complete]
    rw [tokenKinds_append, tokenKinds_modify (tokenKinds_setKind kind)]
    simpa [tokenKinds] using h.paired
  · simp [Parser.complete, hev]
  · exact (hopens.complete hlive hk).append ⟨Nat.one_pos, rfl⟩

theorem Sound.precede (h : Sound src p) (hc : p.isCompleted cm = true) :
    (p.precede cm).1.Sound src := by
  obtain ⟨body, hev, hopens⟩ := h.rooted
  obtain ⟨ev, hget, hnode⟩ : ∃ ev, p.events[cm]? = some ev ∧ ev.isNode = true := by
    unfold isCompleted at hc
    cases hg : p.events[cm]? with
    | none => simp [hg] at hc
    | some ev => exact ⟨ev, rfl, by simpa [hg] using hc⟩
  have hlt := (List.getElem?_eq_some_iff.mp hget).1
  have hcm : cm ≠ 0 := by
    rintro rfl
    rw [hev, List.getElem?_cons_zero] at hget
    obtain rfl := Option.some.inj hget
    cases hnode
  obtain ⟨m, rfl⟩ := Nat.exists_eq_succ_of_ne_zero hcm
  refine ⟨h.whole, h.spelled, h.nontrivia_eq, h.pos_le, ?_, h.linked.precede hlt,
    (body ++ [Event.start .tombstone none]).modify m (setParent p.events.length), ?_, ?_⟩
  · simp only [Parser.precede]
    rw [tokenKinds_modify (tokenKinds_setParent _), tokenKinds_append]
    simpa [tokenKinds] using h.paired
  · simp [Parser.precede, hev]
  · exact (hopens.append (show Opens 0 [.start .tombstone none] 0 from rfl)).link

theorem Sound.split (h : Sound src p) :
    (p.current ≠ .shr ∧ p.splitShrForType.1 = p) ∨
      ∃ before after, p.tokens = before ++ ⟨.shr, ['>', '>']⟩ :: after ∧
      p.current = .shr ∧ p.nontrivia[p.pos]? = some before.length ∧
      p.pos = (nontriviaFrom 0 before).length ∧
      p.splitShrForType.1 = { p with
        tokens := before ++ gtToken :: gtToken :: after
        nontrivia := nontriviaFrom 0 (before ++ gtToken :: gtToken :: after) } := by
  by_cases hs : p.current = .shr
  · have hp : p.atEnd = false := by
      cases hp : p.atEnd with
      | false => rfl
      | true =>
        rw [current, List.getElem?_eq_none (by simpa [atEnd] using hp)] at hs
        cases hs
    obtain ⟨before, t, after, htok, ht, hget, hpos, hcur⟩ := h.cursor hp
    have htext : t = ⟨.shr, ['>', '>']⟩ := by
      obtain ⟨kind, text⟩ := t
      obtain rfl : kind = .shr := hcur.symm.trans hs
      have hfix := (h.spelled ⟨.shr, text⟩ (by rw [htok]; simp)).fixed ['>', '>']
        (show SyntaxKind.shr.staticText = _ by decide)
      rw [← show text = ['>', '>'] from hfix]
    subst htext
    refine .inr ⟨before, after, htok, hs, hget, hpos, ?_⟩
    have htoks : (p.tokens.set before.length gtToken).insertIdx (before.length + 1) gtToken =
        before ++ gtToken :: gtToken :: after := by
      rw [htok, List.set_append_right _ _ (Nat.le_refl _), Nat.sub_self, List.set_cons_zero,
        insertIdx_after]
    have hnon := nontriviaFrom_insert before after ht (u := gtToken) (v := gtToken) rfl rfl
    rw [← htok, ← h.nontrivia_eq, ← hpos] at hnon
    simp only [splitShrForType, hs, ne_eq, not_true_eq_false, if_false, hget, htoks, hnon]
  · refine .inl ⟨hs, ?_⟩
    rw [splitShrForType, if_pos hs]

theorem gtToken_spelled : gtToken.Spelled where
  nonempty := nofun
  fixed text h := by
    have hs : SyntaxKind.gt.staticText = some ['>'] := by decide
    exact Option.some.inj (hs.symm.trans h)

theorem Sound.splitShr (h : Sound src p) : p.splitShrForType.1.Sound src := by
  rcases h.split with ⟨-, hp⟩ | ⟨before, after, htok, -, -, hpos, hp⟩
  · rw [hp]
    exact h
  · rw [hp]
    refine ⟨?_, ?_, rfl, ?_, ?_, h.linked, h.rooted⟩
    · rw [← h.whole, htok]
      simp [gtToken]
    · intro t ht
      have hmem : t = gtToken ∨ t ∈ p.tokens := by
        rw [htok]
        simp only [List.mem_append, List.mem_cons] at ht ⊢
        rcases ht with ht | ht | ht | ht
        · exact .inr (.inl ht)
        · exact .inl ht
        · exact .inl ht
        · exact .inr (.inr (.inr ht))
      rcases hmem with rfl | hmem
      · exact gtToken_spelled
      · exact h.spelled t hmem
    · rw [hpos, nontriviaFrom_append, List.length_append]
      exact Nat.le_add_right _ _
    · have := h.paired
      rw [htok, hpos, take_nontrivial] at this
      rw [hpos, take_nontrivial]
      exact this

theorem Sound.apply (h : Sound src p) (ha : p.apply op = some q) : q.Sound src := by
  cases op with
  | start =>
    cases ha
    exact h.start
  | bump =>
    cases ha
    exact h.bumpRemap (.inl rfl)
  | bumpRemap kind =>
    simp only [Parser.apply] at ha
    split at ha
    · next hk =>
      cases ha
      exact h.bumpRemap (.inr hk)
    · cases ha
  | splitShrForType =>
    cases ha
    exact h.splitShr
  | complete marker kind =>
    simp only [Parser.apply] at ha
    split at ha
    · next hc =>
      cases ha
      exact h.complete hc.1 hc.2.1 hc.2.2
    · cases ha
  | precede cm =>
    simp only [Parser.apply] at ha
    split at ha
    · next hc =>
      cases ha
      exact h.precede hc
    · cases ha
  | error message =>
    cases ha
    exact h.error

theorem Sound.run (h : Sound src p) (hr : p.run ops = some q) : q.Sound src := by
  induction ops generalizing p with
  | nil =>
    cases hr
    exact h
  | cons op ops ih =>
    obtain ⟨p', ha, hr⟩ := Option.bind_eq_some_iff.mp hr
    exact ih (h.apply ha) hr

end Parser

/-- Nothing of the source is lost, and the tree is all of it. -/
structure Parse.Faithful (src : List Char) (parse : Parse) : Prop where
  whole : render parse.tokens = src
  paired : List.Forall₂ Pairs (tokenKinds parse.events) (nontrivial parse.tokens)
  balanced : ∃ resolved, resolveForwardParents parse.events = some resolved ∧
    SingleRoot resolved ∧ tokenKinds resolved = tokenKinds parse.events
  tree : ∃ t, buildTree parse = some t ∧ t.text = src

theorem buildTree_root (hres : resolveForwardParents parse.events = some (.start kind none :: body))
    (hk : kind ≠ .tombstone) (hc : Closes 1 body) (hs : ∀ t ∈ parse.tokens, t.Spelled)
    (hp : List.Forall₂ Pairs (tokenKinds body) (nontrivial parse.tokens)) :
    ∃ t, buildTree parse = some t ∧ t.text = render parse.tokens := by
  have hready : Build.Ready (render parse.tokens) (tokenKinds body)
      ⟨⟨[(kind, 0)], []⟩, parse.tokens, 1⟩ := ⟨rfl, hs, hp⟩
  have hwithin : Build.Within ⟨⟨[(kind, 0)], []⟩, parse.tokens, 1⟩ := ⟨rfl, fun _ => rfl⟩
  obtain ⟨b, hb, kind', children, hch, ht⟩ := Build.run_spec hc hwithin hready nofun
  refine ⟨.node kind' children, ?_, ht⟩
  have hrun : Build.run ⟨⟨[], []⟩, parse.tokens, 0⟩ (.start kind none :: body) = some b := by
    rw [Build.run, Build.step, if_neg hk]
    exact hb
  rw [buildTree, hres]
  simp only [Option.bind_eq_bind, Option.bind_some, hrun, GreenBuilder.finish, hch]

theorem Parser.Sound.finish (h : Parser.Sound src p) (he : p.atEnd = true) :
    p.finish.Faithful src := by
  obtain ⟨body, hev, hopens⟩ := h.rooted
  have hroot : SyntaxKind.sourceFile ≠ .tombstone := by decide
  have hevents : p.finish.events = .start .sourceFile none :: (body ++ [.finish]) := by
    simp [Parser.finish, Parser.complete, hev, setKind]
  have hkinds : tokenKinds p.finish.events = tokenKinds p.events := by
    rw [hevents, hev, tokenKinds_cons, tokenKinds_append, tokenKinds_cons (.start ..)]
    exact congrArg _ (List.append_nil _)
  have hpaired : List.Forall₂ Pairs (tokenKinds p.finish.events) (nontrivial p.tokens) := by
    have hp := h.paired
    have hpos : (nontrivial p.tokens).length ≤ p.pos := by
      rw [← length_nontriviaFrom, ← h.nontrivia_eq]
      simpa [Parser.atEnd] using he
    rwa [List.take_of_length_le hpos, ← hkinds] at hp
  have hlinked : Linked (.start .sourceFile none :: (body ++ [.finish])) := by
    have hl := (h.linked.setKind 0 .sourceFile).append (e := .finish) nofun
    rw [hev] at hl
    exact hl
  obtain ⟨out, hout, hsingle, hkout⟩ :=
    resolve_singleRoot hlinked hroot (hopens.closes (n := 0) ⟨Nat.one_pos, rfl⟩)
  rw [← hevents] at hout
  have hkout' : tokenKinds out = tokenKinds p.finish.events := by
    rw [hkout, hevents]
    rfl
  obtain ⟨kind, rest, rfl, hk, hc⟩ := hsingle
  have hrest := hpaired
  rw [← hkout'] at hrest
  obtain ⟨t, ht, htext⟩ := buildTree_root hout hk hc h.spelled hrest
  exact ⟨h.whole, hpaired, ⟨_, hout, ⟨kind, rest, rfl, hk, hc⟩, hkout'⟩, t, ht, htext.trans h.whole⟩

end AScript.Syntax
