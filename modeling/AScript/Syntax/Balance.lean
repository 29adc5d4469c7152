import AScript.Syntax.Lossless
import AScript.Syntax.TreeBuilder

namespace AScript.Syntax

namespace Event

def opening (kind : SyntaxKind) : Nat := if kind = .tombstone then 0 else 1

theorem opening_node (h : kind ≠ .tombstone) : opening kind = 1 := if_neg h

/-- From `d` open nodes to `e`; none is closed that is not open. -/
def Opens : Nat → List Event → Nat → Prop
  | d, [], e => d = e
  | d, .start kind _ :: es, e => Opens (d + opening kind) es e
  | d, .finish :: es, e => 0 < d ∧ Opens (d - 1) es e
  | d, .token _ :: es, e => Opens d es e
  | d, .error _ :: es, e => Opens d es e

/-- The last of `d` open nodes is closed by the last event, and not before. -/
def Closes : Nat → List Event → Prop
  | d, [] => d = 0
  | d, .start kind _ :: es => 0 < d ∧ Closes (d + opening kind) es
  | d, .finish :: es => 0 < d ∧ Closes (d - 1) es
  | d, .token _ :: es => 0 < d ∧ Closes d es
  | d, .error _ :: es => 0 < d ∧ Closes d es

def SingleRoot (events : List Event) : Prop :=
  ∃ kind body, events = .start kind none :: body ∧ kind ≠ .tombstone ∧ Closes 1 body

def tokenKinds : List Event → List SyntaxKind
  | [] => []
  | .token kind :: es => kind :: tokenKinds es
  | _ :: es => tokenKinds es

@[simp] theorem tokenKinds_append : tokenKinds (es ++ fs) = tokenKinds es ++ tokenKinds fs := by
  induction es with
  | nil => rfl
  | cons e es ih => cases e <;> simp [tokenKinds, ih]

theorem tokenKinds_starts (kinds : List SyntaxKind) :
    tokenKinds (kinds.map (.start · none)) = [] := by
  induction kinds with
  | nil => rfl
  | cons kind kinds ih => exact ih

theorem Opens.append (h : Opens d es m) (h' : Opens m fs e) : Opens d (es ++ fs) e := by
  induction es generalizing d with
  | nil =>
    obtain rfl := h
    exact h'
  | cons ev es ih =>
    cases ev with
    | start kind fp => exact ih h
    | finish => exact ⟨h.1, ih h.2⟩
    | token kind => exact ih h
    | error message => exact ih h

theorem Opens.deeper (h : Opens d es e) (n : Nat) : Opens (d + n) es (e + n) := by
  induction es generalizing d with
  | nil =>
    obtain rfl := h
    exact rfl
  | cons ev es ih =>
    cases ev with
    | start kind fp =>
      show Opens (d + n + opening kind) es (e + n)
      rw [Nat.add_right_comm]
      exact ih h
    | finish =>
      refine ⟨Nat.lt_of_lt_of_le h.1 (Nat.le_add_right d n), ?_⟩
      rw [Nat.sub_add_comm h.1]
      exact ih h.2
    | token kind => exact ih h
    | error message => exact ih h

theorem Opens.complete (h : Opens d es e) (hm : es[m]? = some (.start .tombstone fp))
    (hk : kind ≠ .tombstone) : Opens d (es.modify m (setKind kind)) (e + 1) := by
  induction es generalizing d m with
  | nil => cases hm
  | cons ev es ih =>
    cases m with
    | zero =>
      obtain rfl := Option.some.inj hm
      show Opens (d + opening kind) es (e + 1)
      rw [opening_node hk]
      exact Opens.deeper h 1
    | succ m =>
      rw [List.getElem?_cons_succ] at hm
      rw [List.modify_succ_cons]
      cases ev with
      | start kind' fp' => exact ih h hm
      | finish => exact ⟨h.1, ih h.2 hm⟩
      | token kind' => exact ih h hm
      | error message => exact ih h hm

theorem Opens.link (h : Opens d es e) : Opens d (es.modify m (setParent parent)) e := by
  induction es generalizing d m with
  | nil =>
    rw [List.modify_nil]
    exact h
  | cons ev es ih =>
    cases m with
    | zero => cases ev <;> exact h
    | succ m =>
      rw [List.modify_succ_cons]
      cases ev with
      | start kind fp => exact ih h
      | finish => exact ⟨h.1, ih h.2⟩
      | token kind => exact ih h
      | error message => exact ih h

theorem Opens.closes (h : Opens d es e) (h' : Closes (e + n + 1) fs) :
    Closes (d + n + 1) (es ++ fs) := by
  induction es generalizing d with
  | nil =>
    obtain rfl := h
    exact h'
  | cons ev es ih =>
    cases ev with
    | start kind fp =>
      refine ⟨Nat.succ_pos _, ?_⟩
      rw [show d + n + 1 + opening kind = d + opening kind + n + 1 by omega]
      exact ih h
    | finish =>
      refine ⟨Nat.succ_pos _, ?_⟩
      rw [show d + n + 1 - 1 = d - 1 + n + 1 by have := h.1; omega]
      exact ih h.2
    | token kind => exact ⟨Nat.succ_pos _, ih h⟩
    | error message => exact ⟨Nat.succ_pos _, ih h⟩

theorem Closes.take (h : Closes d es) (hi : es[i]? = some (.start kind fp)) :
    Closes (d + opening kind) (es.set i (.start .tombstone none)) := by
  induction es generalizing d i with
  | nil => cases hi
  | cons ev es ih =>
    cases i with
    | zero =>
      obtain rfl := Option.some.inj hi
      exact ⟨Nat.lt_of_lt_of_le h.1 (Nat.le_add_right _ _), h.2⟩
    | succ i =>
      rw [List.getElem?_cons_succ] at hi
      rw [List.set_cons_succ]
      cases ev with
      | start kind' fp' =>
        refine ⟨Nat.lt_of_lt_of_le h.1 (Nat.le_add_right _ _), ?_⟩
        rw [Nat.add_right_comm]
        exact ih h.2 hi
      | finish =>
        refine ⟨Nat.lt_of_lt_of_le h.1 (Nat.le_add_right _ _), ?_⟩
        rw [Nat.sub_add_comm h.1]
        exact ih h.2 hi
      | token kind' => exact ⟨Nat.lt_of_lt_of_le h.1 (Nat.le_add_right _ _), ih h.2 hi⟩
      | error message => exact ⟨Nat.lt_of_lt_of_le h.1 (Nat.le_add_right _ _), ih h.2 hi⟩

theorem tokenKinds_take (hi : es[i]? = some (.start kind fp)) :
    tokenKinds (es.set i (.start .tombstone none)) = tokenKinds es := by
  induction es generalizing i with
  | nil => cases hi
  | cons ev es ih =>
    cases i with
    | zero =>
      obtain rfl := Option.some.inj hi
      rfl
    | succ i =>
      rw [List.getElem?_cons_succ] at hi
      rw [List.set_cons_succ]
      cases ev <;> simp [tokenKinds, ih hi]

def openings (kinds : List SyntaxKind) : Nat := (kinds.map opening).sum

theorem closes_starts (hd : 0 < d) (h : Closes (d + openings kinds) es) :
    Closes d (kinds.map (.start · none) ++ es) := by
  induction kinds generalizing d with
  | nil => exact h
  | cons kind kinds ih =>
    refine ⟨hd, ih (Nat.lt_of_lt_of_le hd (Nat.le_add_right _ _)) ?_⟩
    rw [Nat.add_assoc]
    exact h

theorem openings_reverse : openings kinds.reverse = openings kinds := by
  rw [openings, List.map_reverse, List.sum_reverse, openings]

def StartAt (es : List Event) (i : Nat) : Prop := ∃ kind fp, es[i]? = some (.start kind fp)

def Linked (es : List Event) : Prop :=
  ∀ i kind j, es[i]? = some (.start kind (some j)) → i < j ∧ StartAt es j

theorem StartAt.set (h : StartAt es i) :
    StartAt (es.set j (.start .tombstone none)) i := by
  obtain ⟨kind, fp, hi⟩ := h
  have hlt := (List.getElem?_eq_some_iff.mp hi).1
  by_cases hij : j = i
  · subst hij
    exact ⟨.tombstone, none, List.getElem?_set_self hlt⟩
  · exact ⟨kind, fp, by rw [List.getElem?_set_ne hij, hi]⟩

theorem Linked.set (h : Linked es) : Linked (es.set j (.start .tombstone none)) := by
  intro i kind k hi
  by_cases hij : j = i
  · subst hij
    rw [List.getElem?_set] at hi
    simp at hi
  · rw [List.getElem?_set_ne hij] at hi
    exact ⟨(h i kind k hi).1, (h i kind k hi).2.set⟩

theorem takeChain_spec (fp : Option Nat) (kinds : List SyntaxKind) (hl : Linked es)
    (hfp : ∀ j, fp = some j → i < j ∧ StartAt es j) (hb : b ≤ i + 1)
    (hfuel : es.length ≤ fuel + i + 1) (hc : Closes d (es.drop b)) :
    ∃ es' kinds', takeChain fuel es fp kinds = some (es', kinds ++ kinds') ∧ Linked es' ∧
      es'.length = es.length ∧ tokenKinds (es'.drop b) = tokenKinds (es.drop b) ∧
      Closes (d + openings kinds') (es'.drop b) := by
  induction fuel generalizing es fp i kinds d with
  | zero =>
    cases fp with
    | none => exact ⟨es, [], by rw [takeChain, List.append_nil], hl, rfl, rfl, hc⟩
    | some j =>
      obtain ⟨hij, _, _, hj⟩ := hfp j rfl
      have := (List.getElem?_eq_some_iff.mp hj).1
      omega
  | succ fuel ih =>
    cases fp with
    | none => exact ⟨es, [], by rw [takeChain, List.append_nil], hl, rfl, rfl, hc⟩
    | some j =>
      obtain ⟨hij, kind, fp, hj⟩ := hfp j rfl
      have hbj : (es.drop b)[j - b]? = some (.start kind fp) := by
        rw [List.getElem?_drop, Nat.add_sub_of_le (by omega), hj]
      have hdrop : (es.set j (.start .tombstone none)).drop b =
          (es.drop b).set (j - b) (.start .tombstone none) := by
        rw [List.drop_set, if_neg (by omega)]
      obtain ⟨es', kinds', ht, hl', hlen, htok, hc'⟩ :=
        ih fp (i := j) (kinds ++ [kind]) hl.set
          (fun k hk => by
            subst hk
            exact ⟨(hl j kind k hj).1, (hl j kind k hj).2.set⟩)
          (by omega) (by rw [List.length_set]; omega) (by rw [hdrop]; exact hc.take hbj)
      refine ⟨es', kind :: kinds', ?_, hl', ?_, ?_, ?_⟩
      · simp only [takeChain, hj, ht, List.append_assoc, List.singleton_append]
      · rw [hlen, List.length_set]
      · rw [htok, hdrop, tokenKinds_take hbj]
      · rw [Nat.add_assoc] at hc'
        exact hc'

theorem resolveFrom_spec (hl : Linked es) (hn : es.length = i + n) (hc : Closes d (es.drop i)) :
    ∃ out, resolveFrom n i es = some out ∧ Closes d out ∧
      tokenKinds out = tokenKinds (es.drop i) := by
  induction n generalizing es i d with
  | zero =>
    rw [List.drop_eq_nil_iff.mpr (by omega)] at hc ⊢
    exact ⟨[], rfl, hc, rfl⟩
  | succ n ih =>
    have hi : i < es.length := by omega
    rw [List.drop_eq_getElem_cons hi] at hc ⊢
    have hget : es[i]? = some es[i] := List.getElem?_eq_getElem hi
    rw [resolveFrom, hget]
    cases hev : es[i] with
    | start kind fp =>
      rw [hev] at hc hget
      by_cases hk : kind = .tombstone
      · subst hk
        obtain ⟨out, ho, hco, hto⟩ := ih hl (by omega) hc.2
        refine ⟨out, ?_, hco, hto⟩
        simp only [if_true, ho]
      · obtain ⟨es', kinds, ht, hl', hlen, htok, hc'⟩ :=
          takeChain_spec fp [kind] hl
            (fun j hj => hl i kind j (by rw [hget, hj])) (Nat.le_refl (i + 1))
            (show es.length ≤ es.length + i + 1 by omega) hc.2
        obtain ⟨out, ho, hco, hto⟩ := ih hl' (by omega) hc'
        refine ⟨(kind :: kinds).reverse.map (.start · none) ++ out, ?_, ?_, ?_⟩
        · simp only [if_neg hk, ht, Option.bind_eq_bind, Option.bind_some, ho]
          rfl
        · refine closes_starts hc.1 ?_
          rw [openings_reverse]
          rw [Nat.add_assoc] at hco
          exact hco
        · rw [tokenKinds_append, tokenKinds_starts, hto, htok]
          rfl
    | finish =>
      rw [hev] at hc
      obtain ⟨out, ho, hco, hto⟩ := ih hl (by omega) hc.2
      exact ⟨.finish :: out, by simp [ho], ⟨hc.1, hco⟩, hto⟩
    | token kind =>
      rw [hev] at hc
      obtain ⟨out, ho, hco, hto⟩ := ih hl (by omega) hc.2
      exact ⟨.token kind :: out, by simp [ho], ⟨hc.1, hco⟩, congrArg (kind :: ·) hto⟩
    | error message =>
      rw [hev] at hc
      obtain ⟨out, ho, hco, hto⟩ := ih hl (by omega) hc.2
      exact ⟨.error message :: out, by simp [ho], ⟨hc.1, hco⟩, hto⟩

theorem resolve_singleRoot (hl : Linked (.start kind none :: es)) (hk : kind ≠ .tombstone)
    (hc : Closes 1 es) :
    ∃ out, resolveForwardParents (.start kind none :: es) = some out ∧ SingleRoot out ∧
      tokenKinds out = tokenKinds es := by
  obtain ⟨out, ho, hco, hto⟩ := resolveFrom_spec (i := 1) (n := es.length) hl
    (Nat.add_comm _ _) hc
  refine ⟨.start kind none :: out, ?_, ⟨kind, out, rfl, hk, hco⟩, hto⟩
  rw [resolveForwardParents, List.length_cons, resolveFrom, List.getElem?_cons_zero]
  simp only [if_neg hk, takeChain, Option.bind_eq_bind, Option.bind_some, Nat.zero_add, ho]
  rfl

end Event

def Pairs (kind : SyntaxKind) (t : LexToken) : Prop := kind = t.kind ∨ kind.staticText = none

theorem leafText_of_pairs (ht : t.Spelled) (h : Pairs kind t) : leafText kind t.text = t.text := by
  unfold leafText
  cases hs : kind.staticText with
  | none => rfl
  | some text =>
    rcases h with rfl | h
    · exact (ht.fixed text hs).symm
    · rw [h] at hs
      cases hs

theorem Tree.texts_append : texts (ts ++ us) = texts ts ++ texts us := by
  induction ts with
  | nil => rfl
  | cons t ts ih => simp [texts, ih]

def nontrivial (tokens : List LexToken) : List LexToken := tokens.filter (!·.kind.isTrivia)

theorem nontrivial_append : nontrivial (ts ++ us) = nontrivial ts ++ nontrivial us :=
  List.filter_append ..

namespace Build

/-- With the token events `kinds` still to come, everything is either in the tree or left. -/
structure Ready (src : List Char) (kinds : List SyntaxKind) (b : Build) : Prop where
  text : Tree.texts b.builder.children ++ render b.rest = src
  spelled : ∀ t ∈ b.rest, t.Spelled
  pairs : List.Forall₂ Pairs kinds (nontrivial b.rest)

theorem texts_leaves (g : GreenBuilder) (hs : ∀ t ∈ ts, LexToken.Spelled t) :
    Tree.texts (ts.foldl (fun g t => g.token t.kind t.text) g).children =
      Tree.texts g.children ++ render ts := by
  induction ts generalizing g with
  | nil => simp
  | cons t ts ih =>
    rw [List.foldl_cons, ih _ fun u hu => hs u (List.mem_cons_of_mem t hu)]
    simp [GreenBuilder.token, Tree.texts_append, Tree.texts, Tree.text,
      leafText_of_pairs (hs t List.mem_cons_self) (.inl rfl)]

theorem parents_leaves (g : GreenBuilder) (ts : List LexToken) :
    (ts.foldl (fun g t => g.token t.kind t.text) g).parents = g.parents := by
  induction ts generalizing g with
  | nil => rfl
  | cons t ts ih => exact ih _

theorem length_leaves (g : GreenBuilder) (ts : List LexToken) :
    g.children.length ≤ (ts.foldl (fun g t => g.token t.kind t.text) g).children.length := by
  induction ts generalizing g with
  | nil => exact Nat.le_refl _
  | cons t ts ih =>
    refine Nat.le_trans ?_ (ih _)
    simp [GreenBuilder.token]

theorem nontrivial_dropWhile (ts : List LexToken) :
    nontrivial (ts.dropWhile (·.kind.isTrivia)) = nontrivial ts := by
  induction ts with
  | nil => rfl
  | cons t ts ih =>
    rw [List.dropWhile_cons]
    split
    · next h => rw [ih, nontrivial, nontrivial, List.filter_cons_of_neg (by simp [h])]
    · rfl

theorem dropWhile_trivia (h : nontrivial ts = []) : ts.dropWhile (·.kind.isTrivia) = [] := by
  induction ts with
  | nil => rfl
  | cons t ts ih =>
    rw [nontrivial, List.filter_cons] at h
    split at h
    · cases h
    · next ht =>
      rw [List.dropWhile_cons_of_pos (by simpa using ht)]
      exact ih h

theorem Ready.flush (h : Ready src kinds b) : Ready src kinds b.flushTrivia where
  text := by
    have hs : ∀ t ∈ b.rest.takeWhile (·.kind.isTrivia), t.Spelled :=
      fun t ht => h.spelled t ((List.takeWhile_prefix _).subset ht)
    simp only [flushTrivia]
    rw [texts_leaves _ hs, List.append_assoc, ← render_append, List.takeWhile_append_dropWhile]
    exact h.text
  spelled t ht := h.spelled t ((List.dropWhile_suffix _).subset ht)
  pairs := by
    simp only [flushTrivia]
    rw [nontrivial_dropWhile]
    exact h.pairs

theorem Ready.next (h : Ready src (kind :: kinds) b) :
    ∃ t rest, b.flushTrivia.rest = t :: rest ∧
      Ready src kinds
        { b.flushTrivia with builder := b.flushTrivia.builder.token kind t.text, rest } := by
  have hf := h.flush
  rcases hr : b.flushTrivia.rest with _ | ⟨t, rest⟩
  · have hp := hf.pairs
    rw [hr] at hp
    cases hp
  · have hnt : t.kind.isTrivia = false := by
      have := List.head_dropWhile_not (·.kind.isTrivia) (l := b.rest) (by
        intro he
        rw [show b.rest.dropWhile (·.kind.isTrivia) = t :: rest from hr] at he
        cases he)
      simp only [show b.rest.dropWhile (·.kind.isTrivia) = t :: rest from hr,
        List.head_cons] at this
      exact this
    have hp := hf.pairs
    rw [hr, nontrivial, List.filter_cons_of_pos (by simp [hnt])] at hp
    obtain ⟨hp, hps⟩ := List.forall₂_cons.mp hp
    have hts : t.Spelled := hf.spelled t (by rw [hr]; exact List.mem_cons_self)
    refine ⟨t, rest, rfl, ?_,
      fun u hu => hf.spelled u (by rw [hr]; exact List.mem_cons_of_mem t hu), hps⟩
    have ht := hf.text
    rw [hr] at ht
    simp only [GreenBuilder.token, Tree.texts_append, Tree.texts, Tree.text, List.append_nil,
      leafText_of_pairs hts hp, List.append_assoc]
    exact ht

def Placed : List (SyntaxKind × Nat) → Nat → Prop
  | [], _ => False
  | [p], _ => p.2 = 0
  | p :: q :: ps, n => p.2 ≤ n ∧ Placed (q :: ps) p.2

theorem Placed.mono (h : Placed ps n) (hn : n ≤ m) : Placed ps m := by
  match ps with
  | [] => exact h
  | [_] => exact h
  | _ :: _ :: _ => exact ⟨Nat.le_trans h.1 hn, h.2⟩

structure Within (b : Build) : Prop where
  depth : b.builder.parents.length = b.depth
  placed : 0 < b.depth → Placed b.builder.parents b.builder.children.length

def Done (src : List Char) (b : Build) : Prop :=
  ∃ kind children, b.builder.children = [.node kind children] ∧ Tree.texts children = src

theorem Within.flush (h : Within b) : Within b.flushTrivia where
  depth := by
    simp only [flushTrivia, parents_leaves]
    exact h.depth
  placed hd := by
    simp only [flushTrivia, parents_leaves]
    exact (h.placed hd).mono (length_leaves _ _)

theorem finishNode_inner (hp : Placed (p :: q :: ps) children.length) :
    ∃ node, GreenBuilder.finishNode ⟨p :: q :: ps, children⟩ =
        some ⟨q :: ps, children.take p.2 ++ [node]⟩ ∧
      Placed (q :: ps) (children.take p.2 ++ [node]).length ∧
      Tree.texts (children.take p.2 ++ [node]) = Tree.texts children := by
  refine ⟨.node p.1 (children.drop p.2), rfl, hp.2.mono ?_, ?_⟩
  · rw [List.length_append, List.length_take, Nat.min_eq_left hp.1]
    exact Nat.le_add_right _ _
  · rw [Tree.texts_append, Tree.texts, Tree.text, Tree.texts, List.append_nil,
      ← Tree.texts_append, List.take_append_drop]

theorem closes_zero (h : Event.Closes 0 es) : es = [] := by
  cases es with
  | nil => rfl
  | cons e es => cases e <;> exact absurd h.1 (Nat.lt_irrefl 0)

theorem finishNode_outer {g : GreenBuilder} (h : g.parents = [p]) (hp : p.2 = 0) :
    g.finishNode = some ⟨[], [.node p.1 g.children]⟩ := by
  rw [GreenBuilder.finishNode, h]
  simp only [hp, List.take_zero, List.drop_zero, List.nil_append]

theorem finish_root (hw : Within b) (hd : b.depth = 1) (hr : Ready src [] b) :
    ∃ b', b.step .finish = some b' ∧ b'.depth = 0 ∧ Done src b' := by
  have hf : Ready src [] (flushTrivia { b with depth := 0 }) :=
    Ready.flush ⟨hr.text, hr.spelled, hr.pairs⟩
  have hnil : (flushTrivia { b with depth := 0 }).rest = [] :=
    dropWhile_trivia (List.forall₂_nil_left_iff.mp hr.pairs)
  obtain ⟨p, hp⟩ : ∃ p, b.builder.parents = [p] :=
    List.length_eq_one_iff.mp (hw.depth.trans hd)
  have hp0 : p.2 = 0 := by
    have hpl := hw.placed (by omega)
    rw [hp] at hpl
    exact hpl
  have hg : (flushTrivia { b with depth := 0 }).builder.parents = [p] := by
    simp only [flushTrivia, parents_leaves]
    exact hp
  have ht := hf.text
  rw [hnil, render_nil, List.append_nil] at ht
  have hs : b.step .finish = some { flushTrivia { b with depth := 0 } with
      builder := ⟨[], [.node p.1 (flushTrivia { b with depth := 0 }).builder.children]⟩ } := by
    rw [step, if_neg (by omega)]
    simp only [hd, Nat.sub_self, if_true, finishNode_outer hg hp0, Option.map_some]
  exact ⟨_, hs, rfl, p.1, _, rfl, ht⟩

theorem run_spec (hc : Event.Closes b.depth es) (hw : Within b)
    (hr : Ready src (Event.tokenKinds es) b) (hdone : b.depth = 0 → Done src b) :
    ∃ b', b.run es = some b' ∧ Done src b' := by
  induction es generalizing b with
  | nil => exact ⟨b, rfl, hdone hc⟩
  | cons e es ih =>
    cases e with
    | start kind fp =>
      by_cases hk : kind = .tombstone
      · subst hk
        rw [run, step, if_pos rfl]
        exact ih hc.2 hw hr hdone
      · rw [run, step, if_neg hk]
        have hc' := hc.2
        rw [Event.opening_node hk] at hc'
        refine ih hc' ⟨congrArg (· + 1) hw.depth, fun _ => ?_⟩ ⟨hr.text, hr.spelled, hr.pairs⟩ nofun
        have hpl := hw.placed hc.1
        simp only [GreenBuilder.startNode]
        rcases hps : b.builder.parents with _ | ⟨q, ps⟩
        · rw [hps] at hpl
          exact hpl.elim
        · rw [hps] at hpl
          exact ⟨Nat.le_refl _, hpl⟩
    | finish =>
      obtain ⟨hd, hc⟩ := hc
      rcases Nat.lt_or_ge 1 b.depth with h1 | h1
      · have hlen := hw.depth
        have hpl := hw.placed hd
        obtain ⟨⟨parents, children⟩, rest, depth⟩ := b
        match parents with
        | [] | [_] => simp at hlen h1; omega
        | p :: q :: ps =>
          obtain ⟨node, hn, hpn, htn⟩ := finishNode_inner hpl
          simp only [run, step, if_neg (show depth ≠ 0 from hd.ne'),
            if_neg (show depth - 1 ≠ 0 by simp at h1; omega), hn, Option.map_some, Option.bind_some]
          refine ih hc ⟨?_, fun _ => hpn⟩ ⟨?_, hr.spelled, hr.pairs⟩ fun h0 => ?_
          · simp at hlen ⊢
            omega
          · rw [htn]
            exact hr.text
          · simp at h0 h1
            omega
      · have h1 : b.depth = 1 := by omega
        rw [h1] at hc
        obtain rfl := closes_zero hc
        obtain ⟨b', hs, -, hb'⟩ := finish_root hw h1 hr
        exact ⟨b', by rw [run, hs, Option.bind_some, run], hb'⟩
    | token kind =>
      obtain ⟨t, rest, ht, hr'⟩ := hr.next
      have hf := hw.flush
      rw [run, step]
      simp only [ht]
      refine ih hc.2 ⟨hf.depth, fun hd => (hf.placed hd).mono ?_⟩ hr' fun hd => ?_
      · simp [GreenBuilder.token]
      · exact absurd hd hc.1.ne'
    | error message => exact ih hc.2 hw hr hdone

end Build

end AScript.Syntax
