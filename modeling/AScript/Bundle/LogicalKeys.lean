import AScript.Bundle.Logical
import Mathlib.Data.List.Induction
import Mathlib.Data.List.Infix
import Mathlib.Data.List.TakeWhile

namespace AScript.Bundle

open AScript.Lib

def IsName (n : Text) : Prop := n ≠ [] ∧ n ≠ ['.'] ∧ n ≠ dotDot ∧ '/' ∉ n

def Named (s : Spot Text) : Prop := ∀ n ∈ s.down, IsName n

def words (s : Spot Text) : List Text := List.replicate s.up dotDot ++ s.down

def render (s : Spot Text) : Text := ['/'].intercalate (words s)

theorem not_mem_of_mem_splitOn (sep : Char) :
    ∀ (text : Text) {piece : Text}, piece ∈ text.splitOn sep → sep ∉ piece
  | [], piece, h => by
    rw [List.splitOn_nil, List.mem_singleton] at h
    subst h
    exact List.not_mem_nil
  | c :: text, piece, h => by
    rw [List.splitOn_cons_eq_if_modifyHead] at h
    split at h
    · obtain rfl | h := List.mem_cons.mp h
      · exact List.not_mem_nil
      · exact not_mem_of_mem_splitOn sep text h
    next hc =>
      obtain ⟨r, rs, hr⟩ := List.exists_cons_of_ne_nil (List.splitOn_ne_nil sep text)
      have ih := @not_mem_of_mem_splitOn sep text
      rw [hr, List.modifyHead_cons] at h
      rw [hr] at ih
      obtain rfl | h := List.mem_cons.mp h
      · intro hmem
        obtain rfl | hmem := List.mem_cons.mp hmem
        · exact hc (beq_self_eq_true sep)
        · exact ih (.head rs) hmem
      · exact ih (.tail r h)

theorem segOf_isName {seg n : Text} (hs : '/' ∉ seg) (h : segOf seg = .name n) : IsName n := by
  unfold segOf at h
  split at h
  · cases h
  · split at h
    · cases h
    next h₁ h₂ =>
      cases h
      exact ⟨fun he => h₁ (.inl he), fun he => h₁ (.inr he), h₂, hs⟩

theorem mem_components {source : Text} (h : Seg.name n ∈ components source) : IsName n := by
  obtain ⟨hmem, -⟩ := List.mem_filter.mp h
  obtain ⟨seg, hseg, he⟩ := List.mem_map.mp hmem
  exact segOf_isName (not_mem_of_mem_splitOn '/' source hseg) he

theorem Named.step {s : Spot Text} (hs : Named s) (hg : ∀ n, g = .name n → IsName n) :
    Named (s.step g) := by
  cases g with
  | here => exact hs
  | up =>
    rw [Spot.step]
    split
    · exact fun _ h => by cases h
    · exact fun n hn => hs n (List.mem_of_mem_dropLast hn)
  | name a =>
    intro n hn
    obtain hn | hn := List.mem_append.mp hn
    · exact hs n hn
    · exact hg n (congrArg Seg.name (List.mem_singleton.mp hn).symm)

theorem Named.walk {s : Spot Text} {segs : List (Seg Text)} (hs : Named s)
    (hg : ∀ n, .name n ∈ segs → IsName n) : Named (s.walk segs) := by
  induction segs generalizing s with
  | nil => exact hs
  | cons g segs ih =>
    exact ih (hs.step fun n hn => hg n (hn ▸ .head segs)) fun n hn => hg n (.tail g hn)

theorem walk_filter_here (s : Spot Text) (segs : List (Seg Text)) :
    s.walk (segs.filter (· ≠ .here)) = s.walk segs := by
  induction segs generalizing s with
  | nil => rfl
  | cons g segs ih => cases g <;> exact ih _

theorem pushSegment_words {s : Spot Text} (hs : Named s) (seg : Text) :
    pushSegment (words s) seg = words (s.step (segOf seg)) := by
  unfold pushSegment segOf
  change _ = words (s.step (if _ then _ else if seg = dotDot then _ else _))
  by_cases h₁ : seg = [] ∨ seg = ['.']
  · rw [if_pos h₁, if_pos h₁]
    rfl
  rw [if_neg h₁, if_neg h₁]
  by_cases h₂ : seg = dotDot
  · rw [if_pos h₂, if_pos h₂]
    obtain ⟨up, down⟩ := s
    cases down using List.reverseRecOn with
    | nil =>
      have hlast : (words ⟨up, []⟩).getLast? = if up = 0 then none else some dotDot := by
        cases up <;> simp [words, List.getLast?_replicate]
      have hup : words ⟨up, []⟩ ++ [dotDot] = words ((⟨up, []⟩ : Spot Text).step .up) := by
        simp [words, Spot.step, List.replicate_succ']
      rw [hlast, ← hup]
      cases up <;> simp
    | append_singleton down last =>
      have hne : last ≠ dotDot := (hs last (by simp)).2.2.1
      simp [words, Spot.step, hne, List.dropLast_append_of_ne_nil]
  · rw [if_neg h₂, if_neg h₂]
    simp [words, Spot.step]

theorem foldl_pushSegment {s : Spot Text} (hs : Named s) :
    ∀ segs : List Text, (∀ seg ∈ segs, '/' ∉ seg) →
    segs.foldl pushSegment (words s) = words (s.walk (segs.map segOf))
  | [], _ => rfl
  | seg :: segs, h => by
    rw [List.foldl_cons, pushSegment_words hs]
    exact foldl_pushSegment (hs.step fun n hn => segOf_isName (h seg (.head segs)) hn) segs
      fun g hg => h g (.tail seg hg)

theorem words_isWord {s : Spot Text} (hs : Named s) {w : Text} (hw : w ∈ words s) :
    w ≠ [] ∧ '/' ∉ w := by
  obtain hw | hw := List.mem_append.mp hw
  · rw [List.eq_of_mem_replicate hw]
    decide
  · exact ⟨(hs w hw).1, (hs w hw).2.2.2⟩

theorem splitOn_render {s : Spot Text} (hs : Named s) :
    (if render s = [] then [] else ((render s).splitOn '/').filter (· ≠ [])) = words s := by
  have hne : ∀ w ∈ words s, decide (w ≠ []) = true := fun w hw =>
    decide_eq_true (words_isWord hs hw).1
  by_cases hw : words s = []
  · rw [render, hw]
    rfl
  have hsplit : (render s).splitOn '/' = words s :=
    List.splitOn_intercalate '/' (fun w h => (words_isWord hs h).2) hw
  have hr : render s ≠ [] := by
    intro hr
    rw [hr, List.splitOn_nil] at hsplit
    have : ([] : Text) ∈ words s := hsplit ▸ List.mem_singleton_self _
    exact (words_isWord hs this).1 rfl
  rw [if_neg hr, hsplit, List.filter_eq_self.mpr hne]

theorem words_inj {s t : Spot Text} (hs : Named s) (ht : Named t) (h : words s = words t) :
    s = t := by
  have hcount : ∀ {r : Spot Text}, Named r → (words r).countP (· = dotDot) = r.up := by
    intro r hr
    have hdown : r.down.countP (· = dotDot) = 0 :=
      List.countP_eq_zero.mpr fun n hn he => (hr n hn).2.2.1 (of_decide_eq_true he)
    simp [words, hdown, List.countP_replicate]
  have hup : s.up = t.up := by rw [← hcount hs, ← hcount ht, h]
  obtain ⟨up, down⟩ := s
  obtain ⟨up', down'⟩ := t
  cases hup
  exact congrArg (Spot.mk up) (List.append_cancel_left h)

theorem render_inj {s t : Spot Text} (hs : Named s) (ht : Named t) :
    render s = render t ↔ s = t := by
  refine ⟨fun h => words_inj hs ht ?_, congrArg render⟩
  rw [← splitOn_render hs, ← splitOn_render ht, h]

theorem intercalate_concat : ∀ (ws : List Text) (n : Text),
    ['/'].intercalate (ws ++ [n]) = ws.flatMap (· ++ ['/']) ++ n
  | [], n => by simp
  | [w], n => by simp
  | w :: w' :: ws, n => by
    have := intercalate_concat (w' :: ws) n
    simp_all [List.intercalate_cons_cons]

theorem flatMap_slash (ws : List Text) :
    ws.flatMap (· ++ ['/']) = [] ∧ ws = [] ∨
      ws.flatMap (· ++ ['/']) = ['/'].intercalate ws ++ ['/'] := by
  cases ws using List.reverseRecOn with
  | nil => exact .inl ⟨rfl, rfl⟩
  | append_singleton ws n =>
    right
    rw [intercalate_concat]
    simp

theorem isSuffix_iff {x : Text} (hx : '/' ∉ x) (ws : List Text) (n : Text) :
    x <:+ ws.flatMap (· ++ ['/']) ++ n ↔ x <:+ n := by
  refine ⟨fun h => ?_, fun h => h.trans (List.suffix_append _ n)⟩
  obtain ⟨hpre, -⟩ | hpre := flatMap_slash ws
  · rwa [hpre] at h
  by_contra hn
  have hlong : ('/' :: n).length ≤ x.length := by
    by_contra hlt
    have hle : x.length ≤ n.length := Nat.le_of_lt_succ (Nat.lt_of_not_le hlt)
    exact hn (List.suffix_of_suffix_length_le h (List.suffix_append _ n) hle)
  have hslash : '/' :: n <:+ ws.flatMap (· ++ ['/']) ++ n := by
    rw [hpre, List.append_assoc]
    exact List.suffix_append _ _
  exact hx ((List.suffix_of_suffix_length_le hslash h hlong).subset (.head n))

theorem defaultAs_render (s : Spot Text) (n : Text) :
    defaultAs (render ⟨s.up, s.down ++ [n]⟩) = render ⟨s.up, s.down ++ [defaultAs n]⟩ := by
  simp only [render, words, ← List.append_assoc, intercalate_concat, defaultAs,
    isSuffix_iff (x := dotAs) (by decide), isSuffix_iff (x := dotAso) (by decide)]
  split <;> simp

theorem defaultAs_isName (h : IsName n) : IsName (defaultAs n) := by
  unfold defaultAs
  split
  · have hlen : 4 ≤ (n ++ dotAs).length := by
      have := List.length_pos_iff.mpr h.1
      simp only [List.length_append, dotAs, List.length_cons, List.length_nil]
      omega
    refine ⟨?_, ?_, ?_, ?_⟩
    · exact fun he => by simp [he] at hlen
    · exact fun he => by simp [he] at hlen
    · exact fun he => by simp [he, dotDot] at hlen
    · simp [h.2.2.2, dotAs]
  · exact h

theorem logicalParent_render {s : Spot Text} {n : Text} (hn : '/' ∉ n) :
    logicalParent (render ⟨s.up, s.down ++ [n]⟩) = render s := by
  have hdrop : ∀ rest : Text, (n.reverse ++ rest).dropWhile (· ≠ '/') = rest.dropWhile (· ≠ '/') :=
    fun rest => List.dropWhile_append_of_pos fun c hc =>
      decide_eq_true fun he => hn (he ▸ List.mem_reverse.mp hc)
  rw [logicalParent, render, words, ← List.append_assoc, intercalate_concat, List.reverse_append,
    hdrop, render]
  change _ = ['/'].intercalate (List.replicate s.up dotDot ++ s.down)
  obtain ⟨hpre, hws⟩ | hpre := flatMap_slash (List.replicate s.up dotDot ++ s.down)
  · rw [hpre, hws]
    rfl
  · rw [hpre]
    simp

namespace Specifier

theorem name_isName (s : Specifier) : IsName s.name :=
  mem_components (show Seg.name s.name ∈ components s.text by rw [s.components_eq]; simp)

theorem dirs_isName (s : Specifier) : ∀ n, .name n ∈ s.dirs → IsName n := fun n hn =>
  mem_components (show Seg.name n ∈ components s.text by
    rw [s.components_eq]
    exact List.mem_append_left _ hn)

theorem walk_components (s : Specifier) (spot : Spot Text) :
    spot.walk ((s.text.splitOn '/').map segOf) =
      ⟨(spot.walk s.dirs).up, (spot.walk s.dirs).down ++ [s.name]⟩ := by
  rw [← walk_filter_here]
  change spot.walk (components s.text) = _
  rw [s.components_eq, Spot.walk, List.foldl_append]
  rfl

end Specifier

theorem joinLogical_render {spot : Spot Text} (hs : Named spot) (s : Specifier) :
    joinLogical (render spot) s.text =
      render ⟨(spot.walk s.dirs).up, (spot.walk s.dirs).down ++ [defaultAs s.name]⟩ := by
  simp only [joinLogical]
  rw [splitOn_render hs, foldl_pushSegment hs _ fun seg => not_mem_of_mem_splitOn '/' s.text,
    s.walk_components]
  exact defaultAs_render _ _

theorem logicalParent_joinLogical {spot : Spot Text} (hs : Named spot) (s : Specifier) :
    logicalParent (joinLogical (render spot) s.text) = render (spot.walk s.dirs) := by
  rw [joinLogical_render hs]
  exact logicalParent_render (defaultAs_isName s.name_isName).2.2.2

/-- The name of the source file that is loaded for a name: any extension makes way for `.as`. -/
def sourceName (n : Text) : Text := (fileStem n).getD n ++ dotAs

theorem rsplitFileAtDot_append {stem ext : Text} (hstem : stem ≠ []) (hext : '.' ∉ ext) :
    rsplitFileAtDot (stem ++ '.' :: ext) = (some stem, some ext) := by
  have hall : ∀ c ∈ ext.reverse, decide (c ≠ '.') = true := fun c hc =>
    decide_eq_true fun he => hext (he ▸ List.mem_reverse.mp hc)
  have hrev : (stem ++ '.' :: ext).reverse = ext.reverse ++ '.' :: stem.reverse := by simp
  have hdrop : (stem ++ '.' :: ext).reverse.dropWhile (· ≠ '.') = '.' :: stem.reverse := by
    rw [hrev, List.dropWhile_append_of_pos hall]
    rfl
  have htake : (stem ++ '.' :: ext).reverse.takeWhile (· ≠ '.') = ext.reverse := by
    rw [hrev, List.takeWhile_append_of_pos hall]
    simp
  unfold rsplitFileAtDot
  rw [hdrop]
  obtain ⟨c, cs, hc⟩ := List.exists_cons_of_ne_nil (List.reverse_ne_nil_iff.mpr hstem)
  rw [hc]
  simp only
  rw [htake, List.reverse_reverse, ← hc, List.reverse_reverse]

theorem rsplitFileAtDot_dot {m : Text} (hm : '.' ∉ m) :
    rsplitFileAtDot ('.' :: m) = (some ('.' :: m), none) := by
  have hall : ∀ c ∈ m.reverse, decide (c ≠ '.') = true := fun c hc =>
    decide_eq_true fun he => hm (he ▸ List.mem_reverse.mp hc)
  have hdrop : ('.' :: m).reverse.dropWhile (· ≠ '.') = ['.'] := by
    rw [List.reverse_cons, List.dropWhile_append_of_pos hall]
    rfl
  unfold rsplitFileAtDot
  rw [hdrop]

theorem rsplitFileAtDot_cases (n : Text) :
    '.' ∉ n ∧ rsplitFileAtDot n = (none, some n) ∨
      (∃ m, n = '.' :: m ∧ '.' ∉ m ∧ rsplitFileAtDot n = (some n, none)) ∨
      ∃ stem ext, stem ≠ [] ∧ '.' ∉ ext ∧ n = stem ++ '.' :: ext ∧
        rsplitFileAtDot n = (some stem, some ext) := by
  by_cases hdot : '.' ∈ n
  · right
    obtain ⟨ext, stem, hn, hext⟩ := List.eq_append_cons_of_mem (List.mem_reverse.mpr hdot)
    have hn : n = stem.reverse ++ '.' :: ext.reverse := by
      rw [← List.reverse_reverse n, hn]
      simp
    have hext : '.' ∉ ext.reverse := mt List.mem_reverse.mp hext
    by_cases hstem : stem.reverse = []
    · rw [hstem, List.nil_append] at hn
      exact .inl ⟨ext.reverse, hn, hext, hn ▸ rsplitFileAtDot_dot hext⟩
    · exact .inr ⟨_, _, hstem, hext, hn, hn ▸ rsplitFileAtDot_append hstem hext⟩
  · refine .inl ⟨hdot, ?_⟩
    have hnil : n.reverse.dropWhile (· ≠ '.') = [] := List.dropWhile_eq_nil_iff.mpr fun c hc =>
      decide_eq_true fun he => hdot (he ▸ List.mem_reverse.mp hc)
    unfold rsplitFileAtDot
    rw [hnil]

theorem exists_fileStem {n : Text} (hn : n ≠ []) : ∃ stem, stem ≠ [] ∧ fileStem n = some stem := by
  obtain ⟨-, hr⟩ | ⟨m, -, -, hr⟩ | ⟨stem, ext, hstem, -, -, hr⟩ := rsplitFileAtDot_cases n
  · exact ⟨n, hn, by rw [fileStem, hr]; rfl⟩
  · exact ⟨n, hn, by rw [fileStem, hr]; rfl⟩
  · exact ⟨stem, hstem, by rw [fileStem, hr]; rfl⟩

theorem sourceName_append {n : Text} (hn : n ≠ []) : sourceName (n ++ dotAs) = n ++ dotAs := by
  rw [sourceName, fileStem, dotAs, rsplitFileAtDot_append hn (by decide)]
  rfl

theorem sourceName_sourceName {n : Text} (hn : n ≠ []) :
    sourceName (sourceName n) = sourceName n := by
  obtain ⟨stem, hstem, h⟩ := exists_fileStem hn
  have hsource : sourceName n = stem ++ dotAs := by rw [sourceName, h, Option.getD_some]
  rw [hsource, sourceName_append hstem]

theorem sourceName_self {n : Text} (h : extensionOf n = some ['a', 's']) : sourceName n = n := by
  obtain ⟨-, hr⟩ | ⟨m, -, -, hr⟩ | ⟨stem, ext, hstem, -, hn, hr⟩ := rsplitFileAtDot_cases n
  · simp [extensionOf, hr] at h
  · simp [extensionOf, hr] at h
  · rw [extensionOf, hr] at h
    cases h
    rw [hn]
    exact sourceName_append hstem

theorem fileName_concat (path : RawPath) (n : Text) : fileName (path ++ [.name n]) = some n := by
  simp [fileName]

theorem withExtension_concat (path : RawPath) {n : Text} (hn : n ≠ []) :
    withExtension (path ++ [.name n]) ['a', 's'] = path ++ [.name (sourceName n)] := by
  obtain ⟨stem, -, h⟩ := exists_fileStem hn
  rw [withExtension, fileName_concat, Option.bind_some, h]
  simp [sourceName, h, dotAs]

theorem join_eq (dir : List Text) (s : Specifier) :
    join dir s.text = dir.map .name ++ s.dirs ++ [.name s.name] := by
  rw [join, s.components_eq, List.append_assoc]

theorem withExtension_stemPath (dir : List Text) (s : Specifier) :
    withExtension (stemPath dir s.text) ['a', 's'] =
      dir.map .name ++ s.dirs ++ [.name (sourceName s.name)] := by
  have hn := s.name_isName.1
  obtain ⟨stem, hstem, h⟩ := exists_fileStem hn
  have hne : sourceName s.name ≠ [] := by simp [sourceName, h, hstem]
  rw [stemPath, join_eq]
  split
  · exact withExtension_concat _ hn
  · rw [withExtension_concat _ hn, withExtension_concat _ hne, sourceName_sourceName hn]

theorem foldl_follow_names : ∀ (dir base : List Text),
    (dir.map Seg.name).foldl follow base = base ++ dir
  | [], base => (List.append_nil base).symm
  | n :: dir, base => by
    rw [List.map_cons, List.foldl_cons, foldl_follow_names dir, follow, List.append_assoc,
      List.singleton_append]

theorem moduleFile_eq (dir : List Text) (s : Specifier) :
    moduleFile dir s.text = s.dirs.foldl follow dir ++ [sourceName s.name] := by
  rw [moduleFile, withExtension_stemPath, canonicalize, List.foldl_append, List.foldl_append,
    foldl_follow_names, List.nil_append]
  rfl

theorem spotAlong_named {spot : Spot Text} (hs : Named spot) (s : Specifier) :
    ∀ ss, Named (spotAlong spot s ss).1 ∧ IsName (spotAlong spot s ss).2
  | [] => ⟨hs.walk s.dirs_isName, s.name_isName⟩
  | t :: ts => spotAlong_named (hs.walk s.dirs_isName) t ts

theorem spotAlong_concat (spot : Spot Text) (s t : Specifier) : ∀ ss,
    spotAlong spot s (ss ++ [t]) = ((spotAlong spot s ss).1.walk t.dirs, t.name)
  | [] => rfl
  | u :: us => spotAlong_concat _ u t us

theorem keyAlong_eq {spot : Spot Text} (hs : Named spot) (s : Specifier) :
    ∀ ss, keyAlong (render spot) s ss = render ⟨(spotAlong spot s ss).1.up,
      (spotAlong spot s ss).1.down ++ [defaultAs (spotAlong spot s ss).2]⟩
  | [] => joinLogical_render hs s
  | t :: ts => by
    rw [keyAlong, logicalParent_joinLogical hs s]
    exact keyAlong_eq (hs.walk s.dirs_isName) t ts

theorem fileAlong_eq (E : List Text) (spot : Spot Text) (s : Specifier) :
    ∀ ss, fileAlong (spot.place E) s ss =
      (spotAlong spot s ss).1.place E ++ [sourceName (spotAlong spot s ss).2]
  | [] => by
    rw [fileAlong, moduleFile_eq, ← Spot.place_walk]
    rfl
  | t :: ts => by
    rw [fileAlong, moduleFile_eq, ← Spot.place_walk, List.dropLast_concat]
    exact fileAlong_eq E (spot.walk s.dirs) t ts

def ComesBack (E : List Text) (c d : Spot Text × Text) : Prop :=
  c.1.up < d.1.up ∧ d.1.down = Spot.between E d.1.up c.1.up ++ c.1.down ∧
    sourceName d.2 = sourceName c.2

theorem defaultAs_sourceName (n : Text) : defaultAs (sourceName n) = sourceName n :=
  if_neg fun h => h.1 (List.suffix_append _ _)

theorem defaultAs_defaultAs (n : Text) : defaultAs (defaultAs n) = defaultAs n := by
  by_cases h : ¬ dotAs <:+ n ∧ ¬ dotAso <:+ n
  · rw [defaultAs, defaultAs, if_pos h]
    exact if_neg fun hn => hn.1 (List.suffix_append _ _)
  · rw [defaultAs, defaultAs, if_neg h, if_neg h]

def Twins (n m : Text) : Prop :=
  n ≠ m ∧ (defaultAs n = defaultAs m ∨ sourceName n = sourceName m) ∧
    ¬ (defaultAs n = sourceName n ∧ defaultAs m = sourceName m)

instance : Decidable (Twins n m) := inferInstanceAs (Decidable (_ ∧ _ ∧ _))

def Apart (E : List Text) (c d : Spot Text × Text) : Prop :=
  ¬ ComesBack E c d ∧ ¬ ComesBack E d c ∧ (c.1 = d.1 → ¬ Twins c.2 d.2)

theorem keyed_of_both {n m : Text} (hn : n ≠ []) (hm : m ≠ []) (hne : n ≠ m)
    (hkey : defaultAs n = defaultAs m) (hfile : sourceName n = sourceName m) :
    defaultAs n = sourceName n := by
  unfold defaultAs at hkey
  split at hkey <;> split at hkey
  case isTrue.isTrue => exact absurd (List.append_cancel_right hkey) hne
  case isFalse.isFalse => exact absurd hkey hne
  case isTrue.isFalse hsuffix _ =>
    rw [defaultAs, if_pos hsuffix, hfile, ← hkey, sourceName_append hn]
  case isFalse.isTrue hsuffix _ =>
    rw [defaultAs, if_neg hsuffix, hkey, sourceName_append hm]

theorem names_agree_iff {n m : Text} (hn : n ≠ []) (hm : m ≠ []) :
    (defaultAs n = defaultAs m ↔ sourceName n = sourceName m) ↔ ¬ Twins n m := by
  by_cases hne : n = m
  · subst hne
    simp [Twins]
  by_cases hkeyed : defaultAs n = sourceName n ∧ defaultAs m = sourceName m
  · simp [Twins, hkeyed.1, hkeyed.2]
  have hboth : defaultAs n = defaultAs m → sourceName n ≠ sourceName m := fun hkey hfile =>
    hkeyed ⟨keyed_of_both hn hm hne hkey hfile,
      keyed_of_both hm hn (Ne.symm hne) hkey.symm hfile.symm⟩
  simp only [Twins, hne, hkeyed, not_false_eq_true, and_true, ne_eq, true_and, not_or]
  constructor
  · intro h
    exact ⟨fun hkey => hboth hkey (h.mp hkey), fun hfile => hboth (h.mpr hfile) hfile⟩
  · rintro ⟨hkey, hfile⟩
    exact iff_of_false hkey hfile

/-- `./foo.t` and `./foo` are one file, `./foo.t` and `./foo.t.as` have one key. -/
example : Twins ['f', '.', 't'] ['f'] ∧ Twins ['f', '.', 't'] ['f', '.', 't', '.', 'a', 's'] := by
  decide

theorem named_concat {s : Spot Text} (hs : Named s) (hn : IsName n) :
    Named ⟨s.up, s.down ++ [n]⟩ := hs.step (g := .name n) fun _ h => Seg.name.inj h ▸ hn

theorem keys_agree_iff (E : List Text) (s : Specifier) (ss : List Specifier) (t : Specifier)
    (ts : List Specifier) :
    (keyAlong [] s ss = keyAlong [] t ts ↔ fileAlong E s ss = fileAlong E t ts) ↔
      Apart E (spotAlong .start s ss) (spotAlong .start t ts) := by
  have hstart : Named .start := fun _ h => nomatch h
  obtain ⟨hsn, hs⟩ := spotAlong_named hstart s ss
  obtain ⟨htn, ht⟩ := spotAlong_named hstart t ts
  have hfile := fileAlong_eq E .start
  rw [Spot.place_start] at hfile
  have hkey := @keyAlong_eq .start hstart
  rw [show render .start = [] from rfl] at hkey
  rw [hkey, hkey, hfile, hfile, render_inj (named_concat hsn (defaultAs_isName hs))
    (named_concat htn (defaultAs_isName ht)), List.append_singleton_inj]
  generalize spotAlong .start s ss = c at *
  generalize spotAlong .start t ts = d at *
  obtain ⟨⟨up, down⟩, n⟩ := c
  obtain ⟨⟨up', down'⟩, m⟩ := d
  have hnames := names_agree_iff hs.1 ht.1
  simp only [Spot.mk.injEq, List.append_singleton_inj, Apart, ComesBack]
  obtain hlt | rfl | hlt := Nat.lt_trichotomy up up'
  · have hplace := Spot.place_eq_iff E (s := ⟨up, down⟩) (t := ⟨up', down'⟩) hlt.le
    simp [hplace, hlt, hlt.ne, Nat.lt_asymm hlt, eq_comm (a := sourceName m)]
  · have hplace := Spot.place_eq_iff E (s := ⟨up, down⟩) (t := ⟨up, down'⟩) (Nat.le_refl up)
    rw [hplace, Spot.between_self, List.nil_append]
    by_cases hdown : down = down'
    · subst hdown
      simpa using hnames
    · simp [hdown, Ne.symm hdown]
  · have hplace := Spot.place_eq_iff E (s := ⟨up', down'⟩) (t := ⟨up, down⟩) hlt.le
    rw [eq_comm (a := Spot.place E ⟨up, down⟩), hplace]
    simp [hlt, hlt.ne', Nat.lt_asymm hlt]

end AScript.Bundle
