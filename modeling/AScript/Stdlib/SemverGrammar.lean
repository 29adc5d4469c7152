import AScript.Lib.Succeeds
import AScript.Stdlib.Semver

namespace AScript.Stdlib.Semver

open AScript.Lib

def IsDigits (s : Text) : Prop := s ≠ [] ∧ ∀ c ∈ s, c.isDigit = true

def IsNumericId (s : Text) : Prop := s = ['0'] ∨ IsDigits s ∧ s.head? ≠ some '0'

def IsAlphanumericId (s : Text) : Prop :=
  (∃ c ∈ s, c.isDigit = false) ∧ ∀ c ∈ s, isIdChar c = true

def IsPrereleaseId (s : Text) : Prop := IsAlphanumericId s ∨ IsNumericId s

def IsBuildId (s : Text) : Prop := IsAlphanumericId s ∨ IsDigits s

def dotted (ids : List Text) : Text := ['.'].intercalate ids

/-- A version as it is written. -/
structure Spelling where
  major : Text
  minor : Text
  patch : Text
  pre : Option (List Text)
  build : Option (List Text)

def after (c : Char) : Option Text → Text
  | some s => c :: s
  | none => []

def joinParts (core : Text) (pre build : Option Text) : Text :=
  core ++ after '-' pre ++ after '+' build

namespace Spelling

def core (x : Spelling) : Text := dotted [x.major, x.minor, x.patch]

def render (x : Spelling) : Text := joinParts x.core (x.pre.map dotted) (x.build.map dotted)

structure Grammatical (x : Spelling) : Prop where
  major : IsNumericId x.major
  minor : IsNumericId x.minor
  patch : IsNumericId x.patch
  pre : ∀ ids ∈ x.pre, ids ≠ [] ∧ ∀ id ∈ ids, IsPrereleaseId id
  build : ∀ ids ∈ x.build, ids ≠ [] ∧ ∀ id ∈ ids, IsBuildId id

/-- Every number is a `u64`. -/
structure Fits (x : Spelling) : Prop where
  major : digitsValue x.major < 2 ^ 64
  minor : digitsValue x.minor < 2 ^ 64
  patch : digitsValue x.patch < 2 ^ 64
  pre : ∀ ids ∈ x.pre, ∀ id ∈ ids, IsNumericId id → digitsValue id < 2 ^ 64

end Spelling

theorem splitOnce_some (h : splitOnce c s = some (b, a)) : s = b ++ c :: a ∧ c ∉ b := by
  induction s generalizing b with
  | nil => cases h
  | cons d s ih =>
    rw [splitOnce] at h
    split at h
    · next hd =>
      obtain ⟨rfl, rfl⟩ := Prod.mk.inj (Option.some.inj h)
      exact ⟨by rw [hd, List.nil_append], List.not_mem_nil⟩
    · next hd =>
      obtain ⟨⟨b', a'⟩, hs, he⟩ := Option.map_eq_some_iff.mp h
      obtain ⟨rfl, rfl⟩ := Prod.mk.inj he
      obtain ⟨rfl, hb⟩ := ih hs
      exact ⟨rfl, by simpa [hb] using Ne.symm hd⟩

theorem splitOnce_append (hb : c ∉ b) : splitOnce c (b ++ c :: a) = some (b, a) := by
  induction b with
  | nil => rw [List.nil_append, splitOnce, if_pos rfl]
  | cons d b ih =>
    rw [List.mem_cons, not_or] at hb
    rw [List.cons_append, splitOnce, if_neg (Ne.symm hb.1), ih hb.2, Option.map_some]

theorem splitOnce_none : splitOnce c s = none ↔ c ∉ s := by
  induction s with
  | nil => simp [splitOnce]
  | cons d s ih =>
    rw [splitOnce]
    split
    · next hd => simp [hd]
    · next hd => rw [Option.map_eq_none_iff, ih, List.mem_cons, not_or, and_iff_right (Ne.symm hd)]

theorem splitParts_join (h : splitParts s = (core, pre, build)) :
    s = joinParts core pre build ∧ '-' ∉ core ∧ '+' ∉ core := by
  unfold splitParts at h
  cases hb : splitOnce '+' s with
  | some cb =>
    obtain ⟨cp, b⟩ := cb
    rw [hb] at h
    obtain ⟨rfl, hplus⟩ := splitOnce_some hb
    dsimp only at h
    cases hp : splitOnce '-' cp with
    | some c =>
      obtain ⟨c, p⟩ := c
      rw [hp] at h
      obtain ⟨rfl, hminus⟩ := splitOnce_some hp
      obtain ⟨rfl, rfl, rfl⟩ : c = core ∧ some p = pre ∧ some b = build := by simpa using h
      exact ⟨by simp [joinParts, after], hminus, fun hc => hplus (List.mem_append_left _ hc)⟩
    | none =>
      rw [hp] at h
      obtain ⟨rfl, rfl, rfl⟩ : cp = core ∧ none = pre ∧ some b = build := by simpa using h
      exact ⟨by simp [joinParts, after], splitOnce_none.mp hp, hplus⟩
  | none =>
    rw [hb] at h
    have hplus := splitOnce_none.mp hb
    dsimp only at h
    cases hp : splitOnce '-' s with
    | some c =>
      obtain ⟨c, p⟩ := c
      rw [hp] at h
      obtain ⟨rfl, hminus⟩ := splitOnce_some hp
      obtain ⟨rfl, rfl, rfl⟩ : c = core ∧ some p = pre ∧ none = build := by simpa using h
      exact ⟨by simp [joinParts, after], hminus, fun hc => hplus (List.mem_append_left _ hc)⟩
    | none =>
      rw [hp] at h
      obtain ⟨rfl, rfl, rfl⟩ : s = core ∧ none = pre ∧ none = build := by simpa using h
      exact ⟨by simp [joinParts, after], splitOnce_none.mp hp, hplus⟩

theorem splitParts_of_join (hminus : '-' ∉ core) (hplus : '+' ∉ core) (hpre : ∀ p ∈ pre, '+' ∉ p) :
    splitParts (joinParts core pre build) = (core, pre, build) := by
  have hp : '+' ∉ core ++ after '-' pre := by
    cases pre with
    | none => simpa [after] using hplus
    | some p => simpa [after] using ⟨hplus, hpre p rfl⟩
  have hsplit : splitOnce '-' (core ++ after '-' pre) = pre.map (core, ·) := by
    cases pre with
    | none => rw [after, List.append_nil, splitOnce_none.mpr hminus, Option.map_none]
    | some p => rw [after, splitOnce_append hminus, Option.map_some]
  unfold splitParts joinParts
  cases build with
  | none =>
    rw [after, List.append_nil, splitOnce_none.mpr hp]
    dsimp only
    rw [hsplit]
    cases pre with
    | none => rw [after, List.append_nil]; rfl
    | some p => rfl
  | some b =>
    rw [show after '+' (some b) = '+' :: b from rfl, splitOnce_append hp]
    dsimp only
    rw [hsplit]
    cases pre with
    | none => rw [after, List.append_nil]; rfl
    | some p => rfl

theorem isNumericIdStrict_iff (s : Text) : isNumericIdStrict s = true ↔ IsNumericId s := by
  unfold isNumericIdStrict IsNumericId IsDigits
  cases s with
  | nil => simp
  | cons c cs =>
    have hz : '0'.isDigit = true := rfl
    cases cs <;> by_cases hc : c = '0' <;> simp [hc, hz]

theorem digits_of_numericId (h : IsNumericId s) : IsDigits s := by
  rcases h with rfl | h
  · exact ⟨by simp, by simp⟩
  · exact h.1

theorem parseU64_isSome (s : Text) : (parseU64 s).isSome = true ↔ digitsValue s < 2 ^ 64 := by
  rw [parseU64]
  split
  · next h => exact iff_of_true rfl h
  · next h => exact iff_of_false nofun h

theorem succeeds_coreNum (s : Text) :
    Succeeds (parseCoreNum s) ↔ IsNumericId s ∧ digitsValue s < 2 ^ 64 := by
  rw [parseCoreNum, ← parseU64_isSome, ← isNumericIdStrict_iff]
  cases isNumericIdStrict s <;> cases parseU64 s <;> simp

theorem succeeds_preId (s : Text) : Succeeds (parsePreId s) ↔
    IsPrereleaseId s ∧ (IsNumericId s → digitsValue s < 2 ^ 64) := by
  rw [parsePreId, IsPrereleaseId, ← parseU64_isSome]
  cases s with
  | nil => simp [IsAlphanumericId, IsNumericId, IsDigits]
  | cons c cs =>
    rw [if_neg (by simp)]
    by_cases hd : (c :: cs).all Char.isDigit = true
    · have halpha : ¬ IsAlphanumericId (c :: cs) := fun h => by
        obtain ⟨d, hmem, hnd⟩ := h.1
        rw [List.all_eq_true.mp hd d hmem] at hnd
        cases hnd
      rw [if_pos hd, ← isNumericIdStrict_iff]
      cases isNumericIdStrict (c :: cs) <;> cases parseU64 (c :: cs) <;> simp [halpha]
    · have hnum : ¬ IsNumericId (c :: cs) := fun h =>
        hd (List.all_eq_true.mpr (digits_of_numericId h).2)
      have hex : ∃ d ∈ c :: cs, d.isDigit = false := by
        rw [Bool.not_eq_true, List.all_eq_false] at hd
        simpa only [Bool.not_eq_true] using hd
      have hid : isAlphanumId (c :: cs) = (c :: cs).all isIdChar := rfl
      simp only [if_neg hd, hnum, or_false, false_implies, and_true]
      rw [IsAlphanumericId, and_iff_right hex, ← List.all_eq_true, hid]
      cases (c :: cs).all isIdChar <;> simp

theorem succeeds_buildId (s : Text) : Succeeds (parseBuildId s) ↔ IsBuildId s := by
  have hdigit : ∀ c : Char, c.isDigit = true → isIdChar c = true := fun c hc => by
    rw [isIdChar, Char.isAlphanum, hc, Bool.or_true, Bool.true_or]
  have hiff : isAlphanumId s = true ↔ IsBuildId s := by
    rw [isAlphanumId, IsBuildId, IsAlphanumericId, IsDigits, Bool.and_eq_true, List.all_eq_true]
    constructor
    · rintro ⟨hne, hall⟩
      by_cases hd : ∀ c ∈ s, c.isDigit = true
      · exact .inr ⟨by simpa using hne, hd⟩
      · push Not at hd
        exact .inl ⟨by simpa using hd, hall⟩
    · rintro (⟨⟨c, hc, -⟩, hall⟩ | ⟨hne, hall⟩)
      · exact ⟨by simpa using List.ne_nil_of_mem hc, hall⟩
      · exact ⟨by simpa using hne, fun c hc => hdigit c (hall c hc)⟩
  rw [parseBuildId, ← hiff]
  cases isAlphanumId s <;> simp

@[simp] theorem succeeds_refuse : Succeeds (refuse bad message) ↔ bad = false := by
  cases bad <;> simp [refuse]

theorem succeeds_required (field : Option Text) (missing : String) :
    Succeeds (required field missing) ↔
      ∃ s, field = some s ∧ IsNumericId s ∧ digitsValue s < 2 ^ 64 := by
  cases field with
  | none => simp [required]
  | some s => simp [required, succeeds_coreNum]

theorem succeeds_optional {parse : Text → Except String (List α)} :
    Succeeds (optional parse s) ↔ ∀ t ∈ s, Succeeds (parse t) := by
  cases s <;> simp [optional]

theorem succeeds_prerelease (s : Text) : Succeeds (parsePrerelease s) ↔ ∀ id ∈ s.splitOn '.',
    IsPrereleaseId id ∧ (IsNumericId id → digitsValue id < 2 ^ 64) := by
  simp only [parsePrerelease, succeeds_mapM, succeeds_preId]

theorem succeeds_build (s : Text) :
    Succeeds (parseBuild s) ↔ ∀ id ∈ s.splitOn '.', IsBuildId id := by
  simp only [parseBuild, succeeds_mapM, succeeds_buildId]

theorem three_fields {P : Text → Prop} (fields : List Text) :
    ((∃ s, fields[0]? = some s ∧ P s) ∧ (∃ s, fields[1]? = some s ∧ P s) ∧
      (∃ s, fields[2]? = some s ∧ P s) ∧ fields[3]?.isSome = false) ↔
    ∃ a b c, fields = [a, b, c] ∧ P a ∧ P b ∧ P c := by
  match fields with
  | [] => simp
  | [a] => simp
  | [a, b] => simp
  | [a, b, c] => simp
  | a :: b :: c :: d :: rest => simp

/-- The parts of a version that `parseVersion` takes. -/
structure GoodParts (core : Text) (pre build : Option Text) : Prop where
  core : ∃ a b c, core.splitOn '.' = [a, b, c] ∧
    (IsNumericId a ∧ digitsValue a < 2 ^ 64) ∧ (IsNumericId b ∧ digitsValue b < 2 ^ 64) ∧
      (IsNumericId c ∧ digitsValue c < 2 ^ 64)
  pre : ∀ p ∈ pre, ∀ id ∈ p.splitOn '.',
    IsPrereleaseId id ∧ (IsNumericId id → digitsValue id < 2 ^ 64)
  build : ∀ b ∈ build, ∀ id ∈ b.splitOn '.', IsBuildId id

theorem succeeds_parseVersion (input : Text) : Succeeds (parseVersion input) ↔
    (trim input).isEmpty = false ∧
      ¬ ((trim input).head? = some 'v' ∨ (trim input).head? = some 'V') ∧
        GoodParts (splitParts (trim input)).1 (splitParts (trim input)).2.1
          (splitParts (trim input)).2.2 := by
  unfold parseVersion
  dsimp only
  by_cases hempty : (trim input).isEmpty = true
  · rw [if_pos hempty]
    exact iff_of_false not_succeeds_error fun h => by simp [h.1] at hempty
  · rw [if_neg hempty]
    by_cases hv : (trim input).head? = some 'v' ∨ (trim input).head? = some 'V'
    · rw [if_pos hv]
      exact iff_of_false not_succeeds_error fun h => h.2.1 hv
    · rw [if_neg hv]
      refine (succeeds_seq fun _ => succeeds_seq fun _ => succeeds_seq fun _ =>
        succeeds_seq fun _ => succeeds_seq fun _ => succeeds_seq fun _ => iff_of_true succeeds_ok
          trivial).trans ?_
      simp only [succeeds_required, succeeds_refuse, succeeds_optional, succeeds_prerelease,
        succeeds_build, and_true]
      have hfields := three_fields (P := fun s => IsNumericId s ∧ digitsValue s < 2 ^ 64)
        ((splitParts (trim input)).1.splitOn '.')
      constructor
      · rintro ⟨h₁, h₂, h₃, h₄, hpre, hbuild⟩
        exact ⟨by simpa using hempty, hv, hfields.mp ⟨h₁, h₂, h₃, h₄⟩, hpre, hbuild⟩
      · rintro ⟨-, -, hcore, hpre, hbuild⟩
        obtain ⟨h₁, h₂, h₃, h₄⟩ := hfields.mpr hcore
        exact ⟨h₁, h₂, h₃, h₄, hpre, hbuild⟩

theorem mem_dotted (h : c ∈ dotted ids) : c = '.' ∨ ∃ id ∈ ids, c ∈ id := by
  induction ids with
  | nil => cases h
  | cons id ids ih =>
    cases ids with
    | nil => exact .inr ⟨id, List.mem_cons_self, by simpa [dotted] using h⟩
    | cons id' ids =>
      rw [dotted, List.intercalate_cons_cons] at h
      rcases List.mem_append.mp h with h | h
      · rcases List.mem_append.mp h with h | h
        · exact .inr ⟨id, List.mem_cons_self, h⟩
        · exact .inl (List.mem_singleton.mp h)
      · obtain h | ⟨d, hd, hc⟩ := ih h
        · exact .inl h
        · exact .inr ⟨d, List.mem_cons_of_mem _ hd, hc⟩

theorem splitOn_dotted (hne : ids ≠ []) (h : ∀ id ∈ ids, ∀ c ∈ id, isIdChar c = true) :
    (dotted ids).splitOn '.' = ids :=
  List.splitOn_intercalate '.' (fun id hid hdot => nomatch h id hid '.' hdot) hne

theorem dotted_splitOn (s : Text) : dotted (s.splitOn '.') = s := List.intercalate_splitOn '.'

theorem isIdChar_of_isDigit (h : c.isDigit = true) : isIdChar c = true := by
  rw [isIdChar, Char.isAlphanum, h, Bool.or_true, Bool.true_or]

theorem IsDigits.idChars (h : IsDigits s) : ∀ c ∈ s, isIdChar c = true :=
  fun c hc => isIdChar_of_isDigit (h.2 c hc)

theorem IsPrereleaseId.idChars (h : IsPrereleaseId s) : ∀ c ∈ s, isIdChar c = true :=
  h.elim (·.2) fun h => (digits_of_numericId h).idChars

theorem IsBuildId.idChars (h : IsBuildId s) : ∀ c ∈ s, isIdChar c = true :=
  h.elim (·.2) fun h => h.idChars

theorem not_mem_dotted (hc : isIdChar c = false) (hdot : c ≠ '.')
    (h : ∀ id ∈ ids, ∀ c ∈ id, isIdChar c = true) : c ∉ dotted ids := by
  intro hmem
  obtain rfl | ⟨id, hid, hcid⟩ := mem_dotted hmem
  · exact hdot rfl
  · rw [h id hid c hcid] at hc
    cases hc

namespace Spelling.Grammatical

theorem fields (h : Grammatical x) : ∀ s ∈ [x.major, x.minor, x.patch], IsNumericId s := by
  intro s hs
  simp only [List.mem_cons, List.not_mem_nil, or_false] at hs
  rcases hs with rfl | rfl | rfl
  · exact h.major
  · exact h.minor
  · exact h.patch

theorem fieldDigits (h : Grammatical x) :
    ∀ s ∈ [x.major, x.minor, x.patch], ∀ c ∈ s, c.isDigit = true :=
  fun s hs => (digits_of_numericId (h.fields s hs)).2

theorem core_splitOn (h : Grammatical x) :
    x.core.splitOn '.' = [x.major, x.minor, x.patch] :=
  splitOn_dotted (List.cons_ne_nil _ _) fun s hs c hc =>
    isIdChar_of_isDigit (h.fieldDigits s hs c hc)

theorem splitParts_render (h : Grammatical x) :
    splitParts x.render = (x.core, x.pre.map dotted, x.build.map dotted) := by
  refine splitParts_of_join ?_ ?_ fun p hp => ?_
  · intro hmem
    obtain hdot | ⟨s, hs, hc⟩ := mem_dotted hmem
    · cases hdot
    · exact nomatch h.fieldDigits s hs _ hc
  · exact not_mem_dotted rfl (by decide) fun s hs c hc =>
      isIdChar_of_isDigit (h.fieldDigits s hs c hc)
  · obtain ⟨ids, hids, rfl⟩ := Option.map_eq_some_iff.mp hp
    exact not_mem_dotted rfl (by decide) fun id hid => ((h.pre ids hids).2 id hid).idChars

theorem head_render (h : Grammatical x) : ∃ c s, x.render = c :: s ∧ c.isDigit = true := by
  obtain ⟨hne, hd⟩ := digits_of_numericId h.major
  obtain ⟨c, s, hs⟩ := List.exists_cons_of_ne_nil hne
  refine ⟨c, s ++ '.' :: dotted [x.minor, x.patch] ++ after '-' (x.pre.map dotted) ++
    after '+' (x.build.map dotted), ?_, hd c (hs ▸ List.mem_cons_self)⟩
  rw [render, joinParts, core, dotted, hs, List.intercalate_cons_cons]
  simp [dotted]

end Spelling.Grammatical

theorem succeeds_iff_grammatical (input : Text) : Succeeds (parseVersion input) ↔
    ∃ x : Spelling, x.Grammatical ∧ x.Fits ∧ x.render = trim input := by
  rw [succeeds_parseVersion]
  constructor
  · rintro ⟨-, -, ⟨a, b, c, hcore, ha, hb, hc⟩, hpre, hbuild⟩
    obtain ⟨hjoin, -, -⟩ := splitParts_join (Prod.mk.eta.trans Prod.mk.eta.symm :
      splitParts (trim input) = ((splitParts (trim input)).1, (splitParts (trim input)).2.1,
        (splitParts (trim input)).2.2))
    generalize splitParts (trim input) = parts at hcore hpre hbuild hjoin
    obtain ⟨core, pre, build⟩ := parts
    refine ⟨⟨a, b, c, pre.map (·.splitOn '.'), build.map (·.splitOn '.')⟩,
      ⟨ha.1, hb.1, hc.1, ?_, ?_⟩, ⟨ha.2, hb.2, hc.2, ?_⟩, ?_⟩
    · rintro _ hids
      obtain ⟨p, hp, rfl⟩ := Option.map_eq_some_iff.mp hids
      exact ⟨List.splitOn_ne_nil _ _, fun id hid => (hpre p hp id hid).1⟩
    · rintro _ hids
      obtain ⟨p, hp, rfl⟩ := Option.map_eq_some_iff.mp hids
      exact ⟨List.splitOn_ne_nil _ _, hbuild p hp⟩
    · rintro _ hids
      obtain ⟨p, hp, rfl⟩ := Option.map_eq_some_iff.mp hids
      exact fun id hid => (hpre p hp id hid).2
    · have hdotted : ∀ o : Option Text, (o.map (·.splitOn '.')).map dotted = o := fun o => by
        cases o with
        | none => rfl
        | some s => exact congrArg some (dotted_splitOn s)
      rw [hjoin, Spelling.render, Spelling.core, ← hcore, dotted_splitOn]
      simp only [hdotted]
  · rintro ⟨x, hx, hfits, hrender⟩
    obtain ⟨d, s, hs, hd⟩ := hx.head_render
    rw [← hrender, hx.splitParts_render]
    refine ⟨by rw [hs]; rfl, ?_, ?_, ?_, ?_⟩
    · rw [hs]
      rintro (hv | hv)
      · cases Option.some.inj hv
        cases hd
      · cases Option.some.inj hv
        cases hd
    · exact ⟨_, _, _, hx.core_splitOn, ⟨hx.major, hfits.major⟩, ⟨hx.minor, hfits.minor⟩,
        hx.patch, hfits.patch⟩
    · intro p hp
      obtain ⟨ids, hids, rfl⟩ := Option.map_eq_some_iff.mp hp
      obtain ⟨hne, hid⟩ := hx.pre ids hids
      rw [splitOn_dotted hne fun id h => (hid id h).idChars]
      exact fun id h => ⟨hid id h, hfits.pre ids hids id h⟩
    · intro p hp
      obtain ⟨ids, hids, rfl⟩ := Option.map_eq_some_iff.mp hp
      obtain ⟨hne, hid⟩ := hx.build ids hids
      rw [splitOn_dotted hne fun id h => (hid id h).idChars]
      exact hid

end AScript.Stdlib.Semver
