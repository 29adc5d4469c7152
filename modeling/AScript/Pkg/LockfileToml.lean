import Mathlib.Data.Char
import AScript.Lib.Precedence
import AScript.Pkg.Lockfile

namespace AScript.Pkg

open AScript.Lib AScript.Lib.Toml

def pieceOf (c : Char) : Piece :=
  if c = quote then .short quote
  else if c = slash then .short slash
  else if c = '\n' then .short 'n'
  else if c = '\r' then .short 'r'
  else if c = '\t' then .short 't'
  else if c.toNat < 0x20 then
    .code (hexDigit (c.toNat / 4096 % 16)) (hexDigit (c.toNat / 256 % 16))
      (hexDigit (c.toNat / 16 % 16)) (hexDigit (c.toNat % 16))
  else .raw c

def tokenOf (s : Text) : Token := .string (s.map pieceOf)

def optPair (key : Text) : Option Text → List Pair
  | some s => [(key, tokenOf s)]
  | none => []

def LockEntry.pairs (e : LockEntry) : List Pair :=
  [(Key.name, tokenOf e.name), (Key.source, tokenOf e.source)] ++
    optPair Key.requirement e.requirement ++ [(Key.resolved, tokenOf e.resolved)] ++
      optPair Key.rev e.rev ++ optPair Key.integrity e.integrity

def Lockfile.document (l : Lockfile) : Document where
  head := [(Key.version, .integer l.version.toNat)]
  name := Key.package
  tables := (l.packages.mergeSort byName).map LockEntry.pairs

theorem render_pieceOf (c : Char) : (pieceOf c).render = escapeToml c := by
  unfold pieceOf escapeToml
  repeat' split
  all_goals rfl

theorem render_tokenOf (s : Text) : (tokenOf s).render = tomlStr s := by
  rw [tokenOf, Token.render, tomlStr, List.flatMap_map]
  simp only [render_pieceOf]

theorem lines_pairs (e : LockEntry) :
    (e.pairs.map renderPair).flatMap (· ++ ['\n']) =
      field Key.name e.name ++ field Key.source e.source ++
        optField Key.requirement e.requirement ++ field Key.resolved e.resolved ++
          optField Key.rev e.rev ++ optField Key.integrity e.integrity := by
  have hopt : ∀ key o, ((optPair key o).map renderPair).flatMap (· ++ ['\n']) = optField key o := by
    intro key o
    cases o with
    | none => rfl
    | some s => simp [optPair, optField, field, renderPair, render_tokenOf]
  simp only [LockEntry.pairs, List.map_append, List.flatMap_append, hopt, List.map_cons,
    List.map_nil, List.flatMap_cons, List.flatMap_nil, List.append_nil, renderPair,
      render_tokenOf, field]

theorem render_document (l : Lockfile) : l.document.render = l.toToml := by
  rw [Document.render, Document.lines, Lockfile.toToml, List.flatMap_append]
  have hhead : (l.document.head.map renderPair).flatMap (· ++ ['\n']) =
      Key.version ++ [' ', '=', ' '] ++ Nat.toDigits 10 l.version.toNat ++ ['\n'] := by
    simp [Lockfile.document, renderPair, Token.render]
  rw [hhead]
  congr 1
  rw [Lockfile.document, List.flatMap_map, List.flatMap_assoc]
  refine congrArg (List.flatMap · _) (funext fun e => ?_)
  rw [List.flatMap_cons, List.flatMap_cons, lines_pairs]
  simp [LockEntry.toToml, Key.package]

def del : Char := Char.ofNat 127

theorem char_ne_of_toNat (h : c ≠ Char.ofNat n) (hn : n.isValidChar) : c.toNat ≠ n := by
  rintro rfl
  exact h (Char.ofNat_toNat c).symm

theorem value_code (h : n < 32) :
    (Piece.code (hexDigit (n / 4096 % 16)) (hexDigit (n / 256 % 16)) (hexDigit (n / 16 % 16))
      (hexDigit (n % 16))).value = some (Char.ofNat n) := by
  revert n
  decide

theorem isUnescaped_iff (h : c ≠ quote) (h' : c ≠ slash) (hlow : ¬ c.toNat < 0x20) :
    isUnescaped c = true ↔ c ≠ del := by
  have h₁ : c.toNat ≠ 34 := char_ne_of_toNat h (by decide)
  have h₂ : c.toNat ≠ 92 := char_ne_of_toNat h' (by decide)
  have h₃ : c.toNat ≠ 127 ↔ c ≠ del :=
    ⟨fun hn hc => hn (congrArg Char.toNat hc), fun hc => char_ne_of_toNat hc (by decide)⟩
  rw [← h₃]
  simp only [isUnescaped, Bool.or_eq_true, beq_iff_eq, Bool.and_eq_true, decide_eq_true_eq,
    bne_iff_ne]
  omega

theorem value_pieceOf (c : Char) : (pieceOf c).value = if c = del then none else some c := by
  unfold pieceOf
  split
  · next h => subst h; rfl
  split
  · next h => subst h; rfl
  split
  · next h => subst h; rfl
  split
  · next h => subst h; rfl
  split
  · next h => subst h; rfl
  split
  · next h =>
    have hdel : c ≠ del := by
      rintro rfl
      exact absurd h (by decide)
    rw [value_code h, if_neg hdel, Char.ofNat_toNat]
  · next hq hs _ _ _ hlow =>
    have hiff := isUnescaped_iff hq hs hlow
    rw [Piece.value]
    by_cases hdel : c = del
    · rw [if_neg fun h => hiff.mp h hdel, if_pos hdel]
    · rw [if_pos (hiff.mpr hdel), if_neg hdel]

theorem shaped_pieceOf (c : Char) : (pieceOf c).Shaped := by
  have hvalue := value_pieceOf c
  unfold pieceOf at hvalue ⊢
  split
  · rfl
  split
  · rfl
  split
  · rfl
  split
  · rfl
  split
  · rfl
  split
  · next h =>
    rw [Piece.Shaped, value_code h]
    · rfl
    · exact nofun
  · next hq hs hn _ _ _ => exact ⟨hq, hs, hn⟩

theorem value_tokenOf (s : Text) :
    (tokenOf s).value = if del ∈ s then none else some (.string s) := by
  have hmap : (s.map pieceOf).mapM Piece.value = if del ∈ s then none else some s := by
    induction s with
    | nil => rfl
    | cons c s ih =>
      rw [List.map_cons, List.mapM_cons, value_pieceOf, ih]
      by_cases hc : c = del
      · rw [if_pos hc, if_pos (List.mem_cons.mpr (.inl hc.symm))]
        rfl
      · have hiff : del ∈ c :: s ↔ del ∈ s := by
          rw [List.mem_cons, or_iff_right (Ne.symm hc)]
        simp only [if_neg hc, hiff]
        split <;> rfl
  rw [tokenOf, Token.value, hmap]
  split <;> rfl

def LockEntry.texts (e : LockEntry) : List Text :=
  [e.name, e.source] ++ e.requirement.toList ++ [e.resolved] ++ e.rev.toList ++ e.integrity.toList

def optValue (key : Text) : Option Text → List (Text × Value)
  | some s => [(key, .string s)]
  | none => []

def LockEntry.values (e : LockEntry) : List (Text × Value) :=
  [(Key.name, .string e.name), (Key.source, .string e.source)] ++
    optValue Key.requirement e.requirement ++ [(Key.resolved, .string e.resolved)] ++
      optValue Key.rev e.rev ++ optValue Key.integrity e.integrity

/-- The pairs mean `values`, unless TOML refuses one of them. -/
def Means (pairs : List Pair) (bad : Prop) (values : List (Text × Value)) : Prop :=
  (bad → Document.pairsValue pairs = none) ∧ (¬ bad → Document.pairsValue pairs = some values)

theorem Means.append (h : Means ps p vs) (h' : Means qs q ws) :
    Means (ps ++ qs) (p ∨ q) (vs ++ ws) := by
  have happend : Document.pairsValue (ps ++ qs) =
      (do return (← Document.pairsValue ps) ++ (← Document.pairsValue qs)) := List.mapM_append
  rw [Means, happend]
  refine ⟨fun hbad => ?_, fun hbad => ?_⟩
  · by_cases hp : p
    · rw [h.1 hp]
      rfl
    · rw [h.2 hp, h'.1 (hbad.resolve_left hp)]
      rfl
  · obtain ⟨hp, hq⟩ := not_or.mp hbad
    rw [h.2 hp, h'.2 hq]
    rfl

theorem Means.congr (h : Means ps p vs) (hiff : p ↔ q) : Means ps q vs :=
  ⟨fun hq => h.1 (hiff.mpr hq), fun hq => h.2 (mt hiff.mp hq)⟩

theorem means_one (key s : Text) : Means [(key, tokenOf s)] (del ∈ s) [(key, .string s)] := by
  have hone : Document.pairsValue [(key, tokenOf s)] =
      (tokenOf s).value.bind fun v => some [(key, v)] := by
    change ((tokenOf s).value.map (key, ·)).bind (fun p => some [p]) = _
    rw [Option.bind_map]
    rfl
  rw [Means, hone, value_tokenOf]
  refine ⟨fun h => ?_, fun h => ?_⟩
  · rw [if_pos h]
    rfl
  · rw [if_neg h]
    rfl

theorem means_opt (key : Text) (o : Option Text) :
    Means (optPair key o) (∃ s ∈ o, del ∈ s) (optValue key o) := by
  cases o with
  | none => exact ⟨nofun, fun _ => rfl⟩
  | some s => exact (means_one key s).congr (by simp)

theorem means_entry (e : LockEntry) : Means e.pairs (∃ s ∈ e.texts, del ∈ s) e.values := by
  have hname := (means_one Key.name e.name).append (means_one Key.source e.source)
  have hreq := hname.append (means_opt Key.requirement e.requirement)
  have hresolved := hreq.append (means_one Key.resolved e.resolved)
  have hrev := hresolved.append (means_opt Key.rev e.rev)
  refine (hrev.append (means_opt Key.integrity e.integrity)).congr ?_
  simp only [LockEntry.texts, List.mem_append, List.mem_cons, List.not_mem_nil, or_false,
    Option.mem_toList, Option.mem_def, or_and_right, exists_or, exists_eq_left]

theorem compares_byName (a b : LockEntry) :
    (List.compareLex compare a.name b.name).Compares a.name b.name := by
  have h := compares_compareLex (f := id) (fun a b : Char => compare_iff a b |>.mp rfl) a.name
    b.name
  rwa [List.map_id, List.map_id] at h

theorem byName_iff (a b : LockEntry) : byName a b = true ↔ a.name ≤ b.name := by
  have h := compares_byName a b
  rw [byName]
  generalize List.compareLex compare a.name b.name = o at h ⊢
  cases o with
  | lt => exact iff_of_true rfl (le_of_lt h)
  | eq => exact iff_of_true rfl (le_of_eq h)
  | gt => exact iff_of_false nofun (not_le.mpr h)

theorem sorted_byName (es : List LockEntry) : (es.mergeSort byName).Pairwise (byName · ·) := by
  refine List.pairwise_mergeSort (fun a b c hab hbc => ?_) (fun a b => ?_) es
  · rw [byName_iff] at hab hbc ⊢
    exact le_trans hab hbc
  · rw [Bool.or_eq_true, byName_iff, byName_iff]
    exact le_total _ _

theorem mergeSort_byName (es : List LockEntry) :
    (es.mergeSort byName).mergeSort byName = es.mergeSort byName :=
  List.mergeSort_of_pairwise (sorted_byName es)

theorem parseEntry_values (ctx : String) (e : LockEntry) :
    parseEntry ctx (Document.tableOf e.values) = .ok e := by
  obtain ⟨name, source, requirement, resolved, rev, integrity⟩ := e
  cases requirement <;> cases rev <;> cases integrity <;> rfl

/-- A lockfile that TOML can hold as it is written. -/
structure Lockfile.Plain (l : Lockfile) : Prop where
  version : l.version.toNat < 2 ^ 63
  texts : ∀ e ∈ l.packages, ∀ s ∈ e.texts, del ∉ s

theorem shaped_tokenOf (s : Text) : (tokenOf s).Shaped := by
  intro p hp
  obtain ⟨c, -, rfl⟩ := List.mem_map.mp hp
  exact shaped_pieceOf c

theorem shaped_optPair {key : Text} (hkey : BareKey key) (o : Option Text) :
    ∀ pair ∈ optPair key o, BareKey pair.1 ∧ pair.2.Shaped := by
  cases o with
  | none => exact nofun
  | some s =>
    rintro pair hpair
    rw [List.mem_singleton.mp hpair]
    exact ⟨hkey, shaped_tokenOf s⟩

instance (key : Text) : Decidable (BareKey key) :=
  decidable_of_iff (key ≠ [] ∧ key.all isBare = true) (by rw [BareKey, List.all_eq_true])

theorem shaped_pairs (e : LockEntry) : ∀ pair ∈ e.pairs, BareKey pair.1 ∧ pair.2.Shaped := by
  intro pair hpair
  simp only [LockEntry.pairs, List.mem_append, List.mem_cons, List.not_mem_nil, or_false] at hpair
  rcases hpair with (((((rfl | rfl) | h) | rfl) | h) | h)
  · exact ⟨(by decide : BareKey Key.name), shaped_tokenOf _⟩
  · exact ⟨(by decide : BareKey Key.source), shaped_tokenOf _⟩
  · exact shaped_optPair (by decide) _ pair h
  · exact ⟨(by decide : BareKey Key.resolved), shaped_tokenOf _⟩
  · exact shaped_optPair (by decide) _ pair h
  · exact shaped_optPair (by decide) _ pair h

theorem nodup_pairs (e : LockEntry) : (e.pairs.map Prod.fst).Nodup := by
  obtain ⟨name, source, requirement, resolved, rev, integrity⟩ := e
  cases requirement <;> cases rev <;> cases integrity <;>
    simp only [LockEntry.pairs, optPair, List.map_append, List.map_cons, List.map_nil] <;> decide

theorem shaped_document (l : Lockfile) : l.document.Shaped where
  head := by
    intro pair hpair
    rw [List.mem_singleton.mp hpair]
    exact ⟨(by decide : BareKey Key.version), trivial⟩
  headKeys := (by decide : [Key.version].Nodup)
  name := by
    change BareKey Key.package ∧ Key.package ∉ [Key.version]
    decide
  tables := by
    intro t ht
    obtain ⟨e, -, rfl⟩ := List.mem_map.mp ht
    exact ⟨shaped_pairs e, nodup_pairs e⟩

def Lockfile.table (l : Lockfile) : Table :=
  Document.withArray [(Key.version, .integer l.version.toNat)] Key.package
    ((l.packages.mergeSort byName).map LockEntry.values)

theorem mapM_pairs (es : List LockEntry) :
    ((∃ e ∈ es, ∃ s ∈ e.texts, del ∈ s) →
      (es.map LockEntry.pairs).mapM Document.pairsValue = none) ∧
    ((¬ ∃ e ∈ es, ∃ s ∈ e.texts, del ∈ s) →
      (es.map LockEntry.pairs).mapM Document.pairsValue = some (es.map LockEntry.values)) := by
  induction es with
  | nil => exact ⟨nofun, fun _ => rfl⟩
  | cons e es ih =>
    rw [List.map_cons, List.mapM_cons]
    have hcons : (∃ x ∈ e :: es, ∃ s ∈ x.texts, del ∈ s) ↔
        (∃ s ∈ e.texts, del ∈ s) ∨ ∃ x ∈ es, ∃ s ∈ x.texts, del ∈ s := by simp
    rw [hcons]
    by_cases he : ∃ s ∈ e.texts, del ∈ s
    · rw [(means_entry e).1 he]
      exact ⟨fun _ => rfl, fun h => absurd (.inl he) h⟩
    · rw [(means_entry e).2 he]
      refine ⟨fun h => ?_, fun h => ?_⟩
      · rw [ih.1 (h.resolve_left he)]
        rfl
      · rw [ih.2 (not_or.mp h).2]
        rfl

theorem value_document (l : Lockfile) :
    (l.Plain → l.document.value = some l.table) ∧ (¬ l.Plain → l.document.value = none) := by
  have hmem : ∀ e, e ∈ l.packages.mergeSort byName ↔ e ∈ l.packages := fun e => List.mem_mergeSort
  obtain ⟨hbad, hgood⟩ := mapM_pairs (l.packages.mergeSort byName)
  have hhead : Document.pairsValue l.document.head =
      if l.version.toNat < 2 ^ 63 then some [(Key.version, .integer l.version.toNat)]
      else none := by
    change (((Token.integer l.version.toNat).value.map (Key.version, ·)).bind fun p => some [p]) = _
    rw [Token.value]
    split <;> rfl
  rw [Document.value, hhead]
  refine ⟨fun h => ?_, fun h => ?_⟩
  · have hno : ¬ ∃ e ∈ l.packages.mergeSort byName, ∃ s ∈ e.texts, del ∈ s := by
      rintro ⟨e, he, s, hs, hdel⟩
      exact h.texts e ((hmem e).mp he) s hs hdel
    rw [if_pos h.version]
    change ((l.packages.mergeSort byName).map LockEntry.pairs).mapM Document.pairsValue >>= _ = _
    rw [hgood hno]
    rfl
  · by_cases hv : l.version.toNat < 2 ^ 63
    · have hyes : ∃ e ∈ l.packages.mergeSort byName, ∃ s ∈ e.texts, del ∈ s := by
        by_contra hno
        refine h ⟨hv, fun e he s hs hdel => hno ⟨e, (hmem e).mpr he, s, hs, hdel⟩⟩
      rw [if_pos hv]
      change ((l.packages.mergeSort byName).map LockEntry.pairs).mapM Document.pairsValue >>= _ = _
      rw [hbad hyes]
      rfl
    · rw [if_neg hv]
      rfl

theorem parseItem_values (ctx : String) (es : List LockEntry) :
    (es.map fun e => Value.table (Document.tableOf e.values)).mapM (parseItem ctx) = .ok es := by
  induction es with
  | nil => rfl
  | cons e es ih =>
    rw [List.map_cons, List.mapM_cons, ih, parseItem, parseEntry_values]
    rfl

theorem parsePackages_table (ctx : String) (l : Lockfile) :
    parsePackages ctx l.table = .ok (l.packages.mergeSort byName) := by
  rw [parsePackages]
  cases hes : l.packages.mergeSort byName with
  | nil =>
    have hget : l.table Key.package = none := by rw [Lockfile.table, hes]; rfl
    rw [hget]
  | cons e es =>
    have hget : l.table Key.package =
        some (.array ((e :: es).map fun e => .table (Document.tableOf e.values))) := by
      rw [Lockfile.table, hes]
      change some (Value.array (((e :: es).map LockEntry.values).map _)) = _
      rw [List.map_map]
      rfl
    rw [hget]
    exact parseItem_values ctx _

theorem parseLockVersion_table (ctx : String) (l : Lockfile) :
    parseLockVersion ctx l.table = .ok l.version := by
  have hget : l.table Key.version = some (.integer l.version.toNat) := rfl
  rw [parseLockVersion, hget]
  dsimp only
  rw [if_pos (Int.natCast_nonneg _), Int.toNat_natCast, UInt64.ofNat_toNat]

theorem parse_plain {l : Lockfile} (toml : Reader) (ctx : String) (h : l.Plain) :
    Lockfile.parse toml ctx l.toToml =
      .ok { l with packages := l.packages.mergeSort byName } := by
  rw [Lockfile.parse, ← render_document,
    toml.takes _ (shaped_document l) _ ((value_document l).1 h)]
  dsimp only
  rw [parseLockVersion_table, parsePackages_table]
  change Except.ok (Lockfile.mk l.version ((l.packages.mergeSort byName).mergeSort byName)) = _
  rw [mergeSort_byName]

theorem parse_not_plain {l : Lockfile} (toml : Reader) (ctx : String) (h : ¬ l.Plain) :
    ∃ e, Lockfile.parse toml ctx l.toToml = .error e := by
  obtain ⟨e, he⟩ := toml.refuses _ (shaped_document l) ((value_document l).2 h)
  rw [Lockfile.parse, ← render_document, he]
  exact ⟨_, rfl⟩

/-- Reading gives the entries in the order of their names, and writing that gives the same text. -/
def Lockfile.RoundTrips (toml : Reader) (ctx : String) (l : Lockfile) : Prop :=
  ∃ l', Lockfile.parse toml ctx l.toToml = .ok l' ∧ l'.version = l.version ∧
    l'.packages.Perm l.packages ∧ l'.packages.Pairwise (·.name ≤ ·.name) ∧ l'.toToml = l.toToml

theorem lockfile_round_trips (toml : Reader) (ctx : String) (l : Lockfile) :
    l.RoundTrips toml ctx ↔ l.Plain := by
  refine ⟨fun ⟨l', hparse, _⟩ => ?_, fun h => ?_⟩
  · by_contra h
    obtain ⟨e, he⟩ := parse_not_plain toml ctx h
    rw [he] at hparse
    cases hparse
  · refine ⟨_, parse_plain toml ctx h, rfl, List.mergeSort_perm _ _, ?_, ?_⟩
    · exact (sorted_byName _).imp fun hab => (byName_iff _ _).mp hab
    · rw [Lockfile.toToml, Lockfile.toToml, mergeSort_byName]

def delEntry : LockEntry where
  name := ['a', del]
  source := ['p']
  requirement := none
  resolved := ['p']
  rev := none
  integrity := none

theorem del_not_round_trips : ([delEntry].map LockEntry.name).Nodup ∧
    ¬ Lockfile.RoundTrips lineReader "ascript.lock" { version := 1, packages := [delEntry] } := by
  refine ⟨by decide, fun ⟨l', hparse, _⟩ => ?_⟩
  have hplain : ¬ Lockfile.Plain { version := 1, packages := [delEntry] } := fun h =>
    h.texts delEntry List.mem_cons_self delEntry.name List.mem_cons_self
      (List.mem_cons_of_mem _ List.mem_cons_self)
  obtain ⟨e, he⟩ := parse_not_plain lineReader "ascript.lock" hplain
  rw [he] at hparse
  cases hparse

end AScript.Pkg
