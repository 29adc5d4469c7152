import AScript.Lib.Succeeds
import AScript.Stdlib.Msgpack

namespace AScript.Stdlib.Msgpack

open AScript.Lib AScript.Runtime

theorem isWhole_iff (f : F64) : isWhole f = true ↔ ∃ n, f.decode = .ofInt n := by
  rw [isWhole, F64.decode_zero, Bool.and_eq_true]
  constructor
  · rintro ⟨hfract, hfin⟩
    cases hd : f.decode with
    | nan => simp [F64.isFinite, Datum.isFinite, hd] at hfin
    | inf s => simp [F64.isFinite, Datum.isFinite, hd] at hfin
    | fin n =>
      have hz : n.tmod Datum.one = 0 := by simpa [hd, Datum.fract, Datum.beq] using hfract
      have hn := Int.tmod_add_tdiv_mul n Datum.one
      exact ⟨n.tdiv Datum.one, congrArg _ (by omega)⟩
  · rintro ⟨n, hn⟩
    simp [F64.isFinite, hn, Datum.ofInt, Datum.fract, Datum.beq, Datum.isFinite, Int.mul_tmod_left]

theorem decode_u64Sup : u64Sup.decode = .ofInt (2 ^ 64) := by
  have he : u64Sup.exponent = 1087 := by decide
  have hm : u64Sup.mantissa = 0 := by decide
  have hs : u64Sup.negative = false := by decide
  have hmag : (F64.magnitude 1087 0 : Int) = 2 ^ 64 * Datum.one := by
    rw [F64.magnitude, if_neg (by decide), Datum.one, ← pow_add, Nat.add_zero, ← pow_add,
      Nat.cast_pow]
    rfl
  rw [F64.decode, he, hm, hs, if_neg (by decide), if_neg (by decide), hmag, Datum.ofInt]

theorem exponent_big {e m k N : Nat} (hm : m < 2 ^ 52) (h : F64.magnitude e m = N * 2 ^ k)
    (hl : 2 ^ 63 ≤ N) (hu : N < 2 ^ 64) : e = k + 12 ∧ N = (2 ^ 52 + m) * 2 ^ 11 := by
  have hlow : 2 ^ (63 + k) ≤ F64.magnitude e m := by
    rw [h, Nat.pow_add]
    exact Nat.mul_le_mul_right _ hl
  have hhigh : F64.magnitude e m < 2 ^ (64 + k) := by
    rw [h, Nat.pow_add]
    exact Nat.mul_lt_mul_of_pos_right hu (Nat.two_pow_pos _)
  have he0 : e ≠ 0 := by
    rintro rfl
    rw [F64.magnitude, if_pos rfl] at hlow
    exact absurd (hlow.trans_lt hm) (Nat.not_lt.mpr (Nat.pow_le_pow_right (by decide) (by omega)))
  have hle : 51 + e < 64 + k := (Nat.pow_lt_pow_iff_right (by decide)).mp
    ((F64.le_magnitude he0).trans_lt hhigh)
  have hgt : 63 + k < 52 + e := (Nat.pow_lt_pow_iff_right (by decide)).mp
    (hlow.trans_lt (F64.magnitude_lt he0 hm))
  obtain rfl : e = k + 12 := by omega
  refine ⟨rfl, ?_⟩
  rw [F64.magnitude, if_neg he0, show k + 12 - 1 = 11 + k by omega, Nat.pow_add,
    ← Nat.mul_assoc] at h
  exact (Nat.eq_of_mul_eq_mul_right (Nat.two_pow_pos _) h).symm

theorem bigFloat_toNat {f : F64} (h : f.decode = .ofInt n) (hl : 2 ^ 63 ≤ n) (hu : n < 2 ^ 64) :
    bigFloat n.toNat = f := by
  have hunits := F64.units_of_decode_fin h
  have hpos : 0 < n * Datum.one := Int.mul_pos (by omega) Datum.one_pos
  have hsign : f.negative = false := by
    by_contra hs
    rw [if_pos (by simpa using hs)] at hunits
    omega
  rw [if_neg (by simp [hsign])] at hunits
  have hmag : F64.magnitude f.exponent f.mantissa = n.toNat * 2 ^ 1074 := by
    apply Int.ofNat_inj.mp
    rw [← hunits, Int.natCast_mul, Int.toNat_of_nonneg (by omega), Datum.one, Nat.cast_pow]
    rfl
  have hm := f.mantissa_lt
  obtain ⟨he, hN⟩ := exponent_big hm hmag (by omega) (by omega)
  rw [bigFloat, hN, nearest_mul _ (by decide), Nat.add_sub_cancel_left]
  refine F64.ext_fields ?_ ?_ ?_
  · rw [hsign, F64.negative, BitVec.msb_eq_decide, BitVec.toNat_ofNat]
    exact decide_eq_false (by omega)
  · rw [he, F64.exponent, BitVec.toNat_ofNat]
    omega
  · rw [F64.mantissa, BitVec.toNat_ofNat]
    omega

/-- The number a float comes back as: an integer where there is one of 64 bits that it is. -/
def normFloat (f : F64) : Tree D := if folds f then .int f.toI64 else .float f

section Numbers

variable {D : Type}

theorem ofInteger_ofI64 (i : I64) : ofInteger (.ofI64 i) = (.int i : Tree D) := by
  rw [ofInteger, Integer.asI64, Integer.ofI64, dif_pos i.upper]

theorem ofInteger_ofU64 (hl : 0 ≤ n) (hu : n < 2 ^ 64) : ofInteger (.ofU64 n) =
    if h : n < 2 ^ 63 then (.int ⟨n, by omega, h⟩ : Tree D) else .float (bigFloat n.toNat) := by
  have hval : (Integer.ofU64 n).val = n := by
    show max 0 (min n (2 ^ 64 - 1)) = n
    omega
  unfold ofInteger Integer.asI64 Integer.asU64
  by_cases h : n < 2 ^ 63
  · rw [dif_pos h, dif_pos (by rw [hval]; exact h)]
    exact congrArg _ (I64.ext hval)
  · rw [dif_neg h, dif_neg (by rw [hval]; exact h), if_pos (by rw [hval]; exact hl), hval]

theorem wholeOf_ofInt (h : f.decode = .ofInt n) : wholeOf f = n := by
  rw [wholeOf, h, Datum.ofInt]
  exact tdiv_ofInt n

variable [DecidableEq D]

theorem fromMp_numberToMp (f : F64) : fromMp (numberToMp f) = (normFloat f : Tree D) := by
  by_cases hw : isWhole f = true
  · obtain ⟨n, hn⟩ := (isWhole_iff f).mp hw
    have hnonneg : F64.zero.le f = decide (0 ≤ n) := by
      rw [F64.le, hn, F64.decode_zero, ← ofInt_le_iff, Datum.ofInt, Datum.ofInt, Int.zero_mul]
    have hsmall : f.lt u64Sup = decide (n < 2 ^ 64) := by
      rw [F64.lt, hn, decode_u64Sup, ofInt_lt_iff]
    have hlow : F64.i64Min.le f = decide (-2 ^ 63 ≤ n) := by
      rw [F64.le, hn, F64.decode_i64Min, ofInt_le_iff]
    have hhigh : f.lt F64.i64Sup = decide (n < 2 ^ 63) := by
      rw [F64.lt, hn, F64.decode_i64Sup, ofInt_lt_iff]
    have hfolds : folds f = (decide (-2 ^ 63 ≤ n) && decide (n < 2 ^ 63)) := by
      rw [isWhole] at hw
      rw [folds, hw, hlow, hhigh, Bool.true_and]
    have hint (h : -2 ^ 63 ≤ n) (h' : n < 2 ^ 63) : f.toI64 = ⟨n, h, h'⟩ :=
      toI64_of_integral (i := ⟨n, h, h'⟩) hn
    rw [numberToMp, if_pos hw, hnonneg, hsmall, hlow, hhigh, normFloat, hfolds]
    simp only [← Bool.decide_and, decide_eq_true_eq]
    by_cases hbig : 0 ≤ n ∧ n < 2 ^ 64
    · rw [if_pos hbig, fromMp, wholeOf_ofInt hn, ofInteger_ofU64 hbig.1 hbig.2]
      by_cases h : n < 2 ^ 63
      · rw [dif_pos h, if_pos ⟨by omega, h⟩, hint (by omega) h]
      · rw [dif_neg h, if_neg (fun hc => h hc.2), bigFloat_toNat hn (by omega) hbig.2]
    · rw [if_neg hbig]
      by_cases h : -2 ^ 63 ≤ n ∧ n < 2 ^ 63
      · rw [if_pos h, if_pos h, fromMp, ofInteger_ofI64]
      · rw [if_neg h, if_neg h, fromMp]
  · have hfolds : folds f = false := by
      rw [isWhole] at hw
      rw [folds, Bool.eq_false_iff.mpr hw]
      rfl
    rw [numberToMp, if_neg hw, fromMp, normFloat, hfolds]
    rfl

end Numbers

section Trees

variable {D : Type}

def Tree.inside : Tree D → List (Tree D)
  | .array items => items
  | .object entries => entries.map Prod.snd
  | .map entries => entries.map Prod.snd
  | _ => []

theorem Tree.sizeOf_inside {t c : Tree D} (h : c ∈ t.inside) : sizeOf c < sizeOf t := by
  cases t with
  | array items =>
    have := List.sizeOf_lt_of_mem (show c ∈ items from h)
    rw [Tree.array.sizeOf_spec]
    omega
  | object entries | map entries =>
    obtain ⟨⟨key, t⟩, he, rfl⟩ := List.mem_map.mp h
    have := List.sizeOf_lt_of_mem he
    simp only [Tree.object.sizeOf_spec, Tree.map.sizeOf_spec, Prod.mk.sizeOf_spec] at this ⊢
    omega
  | _ => cases h

theorem Tree.induct {motive : Tree D → Prop} (h : ∀ t, (∀ c ∈ t.inside, motive c) → motive t)
    (t : Tree D) : motive t :=
  h t fun c _ => Tree.induct h c
termination_by sizeOf t
decreasing_by exact Tree.sizeOf_inside ‹_›

/-- So it is of a tree and of all inside it. -/
inductive Tree.All (P : Tree D → Prop) : Tree D → Prop
  | mk : P t → (∀ c ∈ t.inside, All P c) → All P t

theorem Tree.all_iff {P : Tree D → Prop} : t.All P ↔ P t ∧ ∀ c ∈ t.inside, c.All P :=
  ⟨fun ⟨h, hc⟩ => ⟨h, hc⟩, fun ⟨h, hc⟩ => ⟨h, hc⟩⟩

variable (x : Printing D)

theorem encodeItems_eq (items : List (Tree D)) : encodeItems x items = items.mapM (encode x) := by
  induction items with
  | nil => rfl
  | cons t items ih =>
    rw [encodeItems, ih, List.mapM_cons]
    rfl

theorem encodeEntries_eq (entries : List (String × Tree D)) : encodeEntries x entries =
    entries.mapM fun e => (encode x e.2).map (Mp.string e.1, ·) := by
  induction entries with
  | nil => rfl
  | cons e entries ih =>
    rw [encodeEntries, ih, List.mapM_cons]
    cases encode x e.2 <;> rfl

theorem encodePairs_eq (entries : List (MapKey D × Tree D)) : encodePairs x entries =
    entries.mapM fun e => (encode x e.2).map (keyToMp x e.1, ·) := by
  induction entries with
  | nil => rfl
  | cons e entries ih =>
    rw [encodePairs, ih, List.mapM_cons]
    cases encode x e.2 <;> rfl

def textKey? : MapKey D → Option String
  | .str s => some s
  | .decimal d => some (decimalString x d)
  | _ => none

def normKey : MapKey D → MapKey D
  | .decimal d => .str (decimalString x d)
  | .num bits => .ofFloat ⟨bits⟩
  | key => key

def normElem : MapKey D → Tree D
  | .nil => .nil
  | .bool b => .bool b
  | .int i => .int i
  | .num bits => normFloat ⟨bits⟩
  | .str s => .str s
  | .decimal d => .str (decimalString x d)

mutual

/-- What MessagePack keeps: sets are arrays, maps with keys that are all texts are objects,
decimals are their texts, and floats that are integers of 64 bits are those. -/
def norm : Tree D → Tree D
  | .float f => normFloat f
  | .decimal d => .str (decimalString x d)
  | .array items => .array (normItems items)
  | .set elems => .array (elems.map (normElem x))
  | .object entries => .object (normEntries entries)
  | .map entries =>
    if entries.all fun e => (textKey? x e.1).isSome then
      .object ((normPairs entries).map fun e => ((textKey? x e.1).getD "", e.2))
    else .map ((normPairs entries).map fun e => (normKey x e.1, e.2))
  | .nil => .nil
  | .bool b => .bool b
  | .int i => .int i
  | .str s => .str s
  | .bytes raw => .bytes raw
  | .handle typeName => .handle typeName
  | .loop => .loop

def normItems : List (Tree D) → List (Tree D)
  | [] => []
  | t :: items => norm t :: normItems items

def normEntries : List (String × Tree D) → List (String × Tree D)
  | [] => []
  | (key, t) :: entries => (key, norm t) :: normEntries entries

def normPairs : List (MapKey D × Tree D) → List (MapKey D × Tree D)
  | [] => []
  | (key, t) :: entries => (key, norm t) :: normPairs entries

end

theorem normItems_eq (items : List (Tree D)) : normItems x items = items.map (norm x) := by
  induction items with
  | nil => rfl
  | cons t items ih => rw [normItems, ih, List.map_cons]

theorem normEntries_eq (entries : List (String × Tree D)) :
    normEntries x entries = entries.map fun e => (e.1, norm x e.2) := by
  induction entries with
  | nil => rfl
  | cons e entries ih => rw [normEntries, ih, List.map_cons]

theorem normPairs_eq (entries : List (MapKey D × Tree D)) :
    normPairs x entries = entries.map fun e => (e.1, norm x e.2) := by
  induction entries with
  | nil => rfl
  | cons e entries ih => rw [normPairs, ih, List.map_cons]

/-- No two keys of an object are the same, and no two keys of a map become so. -/
def KeysApart : Tree D → Prop
  | .object entries => (entries.map Prod.fst).Nodup
  | .map entries => (entries.map fun e => normKey x e.1).Nodup
  | _ => True

theorem normFloat_toKey (f : F64) : (normFloat f : Tree D).toKey = some (.ofFloat f) := by
  unfold normFloat
  split
  next h =>
    obtain ⟨i, hi⟩ := (folds_iff f).mp h
    rw [Tree.toKey, MapKey.ofFloat_of_integral hi, toI64_of_integral hi]
  next => rfl

theorem normElem_toKey (key : MapKey D) : (normElem x key).toKey = some (normKey x key) := by
  cases key with
  | num bits => exact normFloat_toKey ⟨bits⟩
  | _ => rfl

theorem isString_numberToMp (f : F64) : (numberToMp f).isString = false := by
  unfold numberToMp
  split
  · split
    · rfl
    · split <;> rfl
  · rfl

theorem isString_keyToMp (key : MapKey D) :
    (keyToMp x key).isString = (textKey? x key).isSome := by
  cases key with
  | num bits => exact isString_numberToMp ⟨bits⟩
  | _ => rfl

theorem keyToMp_text {key : MapKey D} (h : (textKey? x key).isSome) :
    keyToMp x key = .string ((textKey? x key).getD "") ∧
      normKey x key = .str ((textKey? x key).getD "") := by
  cases key <;> simp [textKey?, keyToMp, normKey] at h ⊢

theorem ofPairs_eq_iff {K V : Type} [DecidableEq K] {l l' : List (K × V)}
    (h : l.map Prod.fst = l'.map Prod.fst) :
    (IndexMap.ofPairs l).entries = l' ↔ (l'.map Prod.fst).Nodup ∧ l = l' := by
  constructor
  · intro heq
    have hnodup : (l'.map Prod.fst).Nodup := heq ▸ (IndexMap.ofPairs l).nodup
    rw [← h] at hnodup
    refine ⟨h ▸ hnodup, ?_⟩
    rw [← heq]
    exact (IndexMap.foldl_insert_entries l .empty hnodup).symm
  · rintro ⟨hnodup, rfl⟩
    exact IndexMap.foldl_insert_entries l .empty hnodup

def Written {K : Type} (key : K → Mp) (entries : List (K × Tree D)) (pairs : List (Mp × Mp)) :
    Prop :=
  List.Forall₂ (fun e p => p.1 = key e.1 ∧ encode x e.2 = .ok p.2) entries pairs

theorem written_of_mapM {K : Type} {key : K → Mp} {entries : List (K × Tree D)}
    (h : (entries.mapM fun e => (encode x e.2).map (key e.1, ·)) = .ok pairs) :
    Written x key entries pairs := by
  refine (forall₂_of_mapM h).imp fun e p he => ?_
  obtain ⟨mp, hmp, rfl⟩ := map_ok he
  exact ⟨rfl, hmp⟩

theorem Written.all {entries : List (MapKey D × Tree D)} (h : Written x (keyToMp x) entries pairs) :
    pairs.all (·.1.isString) = entries.all fun e => (textKey? x e.1).isSome := by
  induction h with
  | nil => rfl
  | cons hp _ ih => rw [List.all_cons, List.all_cons, ih, hp.1, isString_keyToMp]

theorem KeysApart.texts {entries : List (MapKey D × Tree D)}
    (h : ∀ e ∈ entries, (textKey? x e.1).isSome) :
    KeysApart x (.map entries) ↔ (entries.map fun e => (textKey? x e.1).getD "").Nodup := by
  have hmap : (entries.map fun e => normKey x e.1) =
      (entries.map fun e => (textKey? x e.1).getD "").map MapKey.str := by
    rw [List.map_map]
    exact List.map_congr_left fun e he => (keyToMp_text x (h e he)).2
  rw [KeysApart, hmap]
  exact List.nodup_map_iff fun _ _ h => MapKey.str.inj h

variable [DecidableEq D]

theorem fromItems_eq (items : List Mp) : fromItems items = items.map (fromMp (D := D)) := by
  induction items with
  | nil => rfl
  | cons mp items ih => rw [fromItems, ih, List.map_cons]

theorem fromMp_keyToMp (key : MapKey D) : fromMp (keyToMp x key) = normElem x key := by
  cases key with
  | int i => exact ofInteger_ofI64 i
  | num bits => exact fromMp_numberToMp ⟨bits⟩
  | _ => rfl

def Made {K L : Type} (key : K → L) (entries : List (K × Tree D)) (made : List (L × Tree D)) :
    Prop :=
  List.Forall₂ (fun e m => m.1 = key e.1 ∧ ∃ mp, encode x e.2 = .ok mp ∧ m.2 = fromMp mp)
    entries made

theorem Written.strings {K : Type} {key : K → Mp} {entries : List (K × Tree D)}
    (h : Written x key entries pairs) (text : K → String)
    (hkey : ∀ e ∈ entries, key e.1 = .string (text e.1)) :
    pairs.all (·.1.isString) = true ∧ Made x text entries (fromEntries pairs) := by
  induction h with
  | nil => exact ⟨rfl, .nil⟩
  | @cons e p entries pairs hp _ ih =>
    obtain ⟨hall, hmade⟩ := ih fun e he => hkey e (List.mem_cons_of_mem _ he)
    obtain ⟨k, mp⟩ := p
    obtain rfl : k = .string (text e.1) := hp.1.trans (hkey e List.mem_cons_self)
    exact ⟨hall, .cons ⟨rfl, mp, hp.2, rfl⟩ hmade⟩

theorem Written.keys {entries : List (MapKey D × Tree D)}
    (h : Written x (keyToMp x) entries pairs) :
    Made x (normKey x) entries (fromPairs pairs) := by
  induction h with
  | nil => exact .nil
  | @cons e p entries pairs hp _ ih =>
    obtain ⟨k, mp⟩ := p
    obtain rfl : k = keyToMp x e.1 := hp.1
    rw [fromPairs, fromMp_keyToMp, normElem_toKey]
    exact .cons ⟨rfl, mp, hp.2, rfl⟩ ih

theorem comesBack {K L : Type} [DecidableEq L] {key : K → L} {entries : List (K × Tree D)}
    {made : List (L × Tree D)} (h : Made x key entries made)
    (ih : ∀ e ∈ entries, ∀ mp, encode x e.2 = .ok mp →
      (fromMp mp = norm x e.2 ↔ e.2.All (KeysApart x))) :
    (IndexMap.ofPairs made).entries = entries.map (fun e => (key e.1, norm x e.2)) ↔
      (entries.map fun e => key e.1).Nodup ∧ ∀ e ∈ entries, e.2.All (KeysApart x) := by
  have hkeys : made.map Prod.fst = (entries.map fun e => (key e.1, norm x e.2)).map Prod.fst := by
    rw [List.map_map]
    clear ih
    induction h with
    | nil => rfl
    | cons hm _ ih => rw [List.map_cons, List.map_cons, ih, hm.1]; rfl
  have hsame := map_eq_map_iff (g := id) (f := fun e => (key e.1, norm x e.2))
    (P := fun e => e.2.All (KeysApart x)) h fun e he m hm => by
      obtain ⟨hfst, mp, hmp, hsnd⟩ := hm
      rw [id, Prod.ext_iff, hsnd, ← ih e he mp hmp]
      exact and_iff_right hfst
  rw [List.map_id] at hsame
  rw [ofPairs_eq_iff hkeys, hsame, List.map_map]
  rfl

theorem fromMp_encode (t : Tree D) (h : encode x t = .ok mp) :
    fromMp mp = norm x t ↔ t.All (KeysApart x) := by
  induction t using Tree.induct generalizing mp with
  | h t ih =>
    rw [Tree.all_iff]
    cases t with
    | nil | bool | str | bytes | decimal =>
      cases h
      exact ⟨fun _ => ⟨trivial, nofun⟩, fun _ => rfl⟩
    | int i =>
      cases h
      exact ⟨fun _ => ⟨trivial, nofun⟩, fun _ => ofInteger_ofI64 i⟩
    | float f =>
      cases h
      exact ⟨fun _ => ⟨trivial, nofun⟩, fun _ => fromMp_numberToMp f⟩
    | set elems =>
      cases h
      refine ⟨fun _ => ⟨trivial, nofun⟩, fun _ => ?_⟩
      rw [fromMp, norm, fromItems_eq, List.map_map]
      exact congrArg Tree.array (List.map_congr_left fun key _ => fromMp_keyToMp x key)
    | handle => cases h
    | loop => cases h
    | array items =>
      rw [encode, encodeItems_eq] at h
      obtain ⟨mps, hmps, rfl⟩ := map_ok h
      rw [fromMp, norm, fromItems_eq, normItems_eq, Tree.array.injEq]
      rw [map_eq_map_iff (forall₂_of_mapM hmps) fun c hc mp hmp => ih c hc hmp]
      exact (and_iff_right trivial).symm
    | object entries =>
      rw [encode, encodeEntries_eq] at h
      obtain ⟨pairs, hpairs, rfl⟩ := map_ok h
      obtain ⟨hall, hmade⟩ := (written_of_mapM x hpairs).strings x id fun _ _ => rfl
      rw [fromMp, if_pos hall, norm, normEntries_eq, Tree.object.injEq]
      refine (comesBack x hmade fun e he mp hmp => ih e.2 (List.mem_map_of_mem he) hmp).trans ?_
      exact and_congr_right fun _ => List.forall_mem_map.symm
    | map entries =>
      rw [encode, encodePairs_eq] at h
      obtain ⟨pairs, hpairs, rfl⟩ := map_ok h
      have hwritten := written_of_mapM x hpairs
      have hinside : (∀ c ∈ (Tree.map entries).inside, c.All (KeysApart x)) ↔
          ∀ e ∈ entries, e.2.All (KeysApart x) := List.forall_mem_map
      have hback {e} (he : e ∈ entries) {mp} := @ih e.2 (List.mem_map_of_mem he) mp
      rw [fromMp, norm, hwritten.all x, normPairs_eq, List.map_map, List.map_map, hinside]
      by_cases hall : (entries.all fun e => (textKey? x e.1).isSome) = true
      · have htext : ∀ e ∈ entries, (textKey? x e.1).isSome := by simpa using hall
        obtain ⟨-, hmade⟩ := hwritten.strings x
          (fun key => (textKey? x key).getD "") fun e he => (keyToMp_text x (htext e he)).1
        rw [if_pos hall, if_pos hall, Tree.object.injEq, KeysApart.texts x htext]
        exact comesBack x hmade fun e he mp hmp => hback he hmp
      · rw [if_neg hall, if_neg hall, Tree.map.injEq, KeysApart]
        exact comesBack x (hwritten.keys x) fun e he mp hmp => hback he hmp

end Trees

end AScript.Stdlib.Msgpack
