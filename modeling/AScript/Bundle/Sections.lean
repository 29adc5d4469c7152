import AScript.Bundle.Archive
import AScript.Bundle.Pgo

namespace AScript.Bundle

open AScript.Lib

namespace Pgo

theorem word_safe : Safe (word k) := .of_parses Parses.word

theorem take_safe : Safe (take n) := .of_parses Parses.take

theorem u8_safe : Safe u8 := word_safe.bind fun _ => .pure _

theorem u32Raw_safe : Safe u32Raw := word_safe.bind fun _ => .pure _

theorem u32Clamped_safe : Safe u32Clamped := word_safe.bind fun _ => .ite (.throw _) (.pure _)

theorem remaining_safe : Safe remaining := by
  intro c hc
  refine ⟨_, rfl, ?_⟩
  rintro _ _ ⟨⟩
  exact ⟨[], trivial, rfl, hc, rfl, id⟩

theorem str_safe : Safe str := by
  refine word_safe.bind fun len => remaining_safe.bind fun left => .ite (.throw _) ?_
  refine take_safe.bind fun bytes => ?_
  split
  · exact .pure _
  · exact .throw _

theorem list_safe {get : Get α} (h : Safe get) : Safe (list get) := u32Clamped_safe.bind h.many

theorem short_safe {get : Get UInt32} (h : Safe get) : Safe (readShort get) :=
  u8_safe.bind fun n => .ite (.throw _) (h.many n.toNat)

theorem arith_safe : Safe readArith :=
  u32Raw_safe.bind fun _ => u8_safe.bind fun _ => .ite (.throw _) (.pure _)

theorem listIdx_safe : Safe (readListIdx n) :=
  u32Raw_safe.bind fun _ => .ite (.throw _) (.pure _)

theorem field_safe : Safe (readField n) :=
  u32Raw_safe.bind fun _ => (short_safe listIdx_safe).bind fun _ => .pure _

theorem proto_safe : Safe (readProto n) :=
  (short_safe u32Raw_safe).bind fun _ => (list_safe arith_safe).bind fun _ =>
    (list_safe field_safe).bind fun _ => (list_safe u32Raw_safe).bind fun _ => .pure _

theorem module_safe : Safe (readModule n) :=
  str_safe.bind fun _ => Safe.bind (.of_parses Parses.array) fun _ =>
    (list_safe proto_safe).bind fun _ => .pure _

theorem section_safe : Safe readSection :=
  (list_safe (list_safe str_safe)).bind fun _ => (list_safe module_safe).bind fun _ => .pure _

end Pgo

theorem PgoSection.decode_total (payload : List UInt8) : ∃ r, decode payload = some r := by
  obtain ⟨e | ⟨s, c⟩, hr, -⟩ := Pgo.section_safe ⟨payload, 0⟩ (Cursor.within_start payload)
  · exact ⟨none, by rw [decode, hr]⟩
  · exact ⟨some s, by rw [decode, hr]⟩

namespace Pgo

structure ProtoFits (keyLists : Nat) (p : PgoProto) : Prop where
  path : p.path.length ≤ 255
  arith : p.arith.length ≤ maxPgoItems ∧ ∀ a ∈ p.arith, a.2 ≤ 3
  fields : p.fields.length ≤ maxPgoItems ∧
    ∀ f ∈ p.fields, f.2.length ≤ 255 ∧ ∀ idx ∈ f.2, idx.toNat < keyLists
  globals : p.globals.length ≤ maxPgoItems

structure ModuleFits (keyLists : Nat) (m : PgoModule) : Prop where
  moduleKey : (utf8 m.moduleKey).length < 2 ^ 32
  protos : m.protos.length ≤ maxPgoItems ∧ ∀ p ∈ m.protos, ProtoFits keyLists p

end Pgo

/-- Counts, depths, indices and tags within the decoder's limits. -/
structure PgoSection.Fits (s : PgoSection) : Prop where
  keyLists : s.keyLists.length ≤ maxPgoItems ∧
    ∀ ks ∈ s.keyLists, ks.length ≤ maxPgoItems ∧ ∀ k ∈ ks, (utf8 k).length < 2 ^ 32
  modules : s.modules.length ≤ maxPgoItems ∧ ∀ m ∈ s.modules, Pgo.ModuleFits s.keyLists.length m

namespace Pgo

theorem writeU32_eq (h : n < 2 ^ 32) : writeU32 n = le 4 n :=
  congrArg (le 4) (Nat.min_eq_left (Nat.le_pred_of_lt h))

theorem u8_takes (b : UInt8) : Takes u8 [b] b := by
  have h : Takes u8 (le 1 b.toNat) (UInt8.ofNat b.toNat) := (Takes.word b.toNat_lt).map
  rwa [UInt8.ofNat_toNat, le, UInt8.ofNat_toNat] at h

theorem u32Raw_takes (n : UInt32) : Takes u32Raw (writeIdx n) n := by
  have h : Takes u32Raw (writeIdx n) (UInt32.ofNat n.toNat) := (Takes.word n.toNat_lt).map
  rwa [UInt32.ofNat_toNat] at h

theorem str_takes (h : (utf8 s).length < 2 ^ 32) : Takes str (writeStr s) s := by
  rw [writeStr, writeU32_eq h]
  refine (Takes.word h).bind ?_
  -- what is left is at least the text
  intro c rest hc hpos hrest
  have hleft : ¬ c.buf.length - c.pos < (utf8 s).length := by
    rw [← Cursor.length_rest, hrest, List.length_append]
    omega
  have hremaining : remaining c = some (.ok (c.buf.length - c.pos, c)) := rfl
  refine (Scan.bind_ok hremaining).trans ?_
  rw [if_neg hleft]
  refine Takes.take.andThen ?_ c rest hc hpos hrest
  rw [ofUtf8_utf8]
  exact .pure s

theorem list_takes {write : α → List UInt8} {get : Get α} {as : List α}
    (hn : as.length ≤ maxPgoItems) (h : ∀ a ∈ as, Takes get (write a) a) :
    Takes (list get) (writeList write as) as := by
  have hlt : as.length < 2 ^ 32 := Nat.lt_of_le_of_lt hn (by decide)
  rw [writeList, writeU32_eq hlt]
  have hcount : Takes u32Clamped (le 4 as.length) as.length := by
    refine (Takes.word hlt).andThen ?_
    rw [if_neg (Nat.not_lt.mpr hn)]
    exact .pure _
  exact hcount.bind (.many h)

theorem short_takes {get : Get UInt32} {idxs : List UInt32} (hn : idxs.length ≤ 255)
    (h : ∀ idx ∈ idxs, Takes get (writeIdx idx) idx) :
    Takes (readShort get) (writeShort idxs) idxs := by
  have hlen : (UInt8.ofNat idxs.length).toNat = idxs.length :=
    UInt8.toNat_ofNat_of_lt (Nat.lt_succ_of_le hn)
  have hsmall : ¬ maxPgoItems < idxs.length := Nat.not_lt.mpr (Nat.le_trans hn (by decide))
  rw [writeShort, Nat.min_eq_left hn, List.take_length]
  refine (u8_takes _).bind ?_
  rw [hlen, if_neg hsmall]
  exact .many h

theorem arith_takes {a : UInt32 × UInt8} (h : a.2 ≤ 3) : Takes readArith (writeArith a) a := by
  refine (u32Raw_takes a.1).bind ((u8_takes a.2).andThen ?_)
  rw [if_neg (UInt8.not_lt.mpr h)]
  exact .pure _

theorem listIdx_takes {idx : UInt32} (h : idx.toNat < n) :
    Takes (readListIdx n) (writeIdx idx) idx := by
  refine (u32Raw_takes idx).andThen ?_
  rw [if_neg (Nat.not_le.mpr h)]
  exact .pure _

theorem field_takes {f : UInt32 × List UInt32} (hn : f.2.length ≤ 255)
    (h : ∀ idx ∈ f.2, idx.toNat < n) : Takes (readField n) (writeField f) f :=
  (u32Raw_takes f.1).bind (short_takes hn fun idx hi => listIdx_takes (h idx hi)).map

theorem proto_takes (h : ProtoFits n p) : Takes (readProto n) (writeProto p) p := by
  refine (short_takes h.path fun idx _ => u32Raw_takes idx).bind ?_
  refine (list_takes h.arith.1 fun a ha => arith_takes (h.arith.2 a ha)).bind ?_
  refine (list_takes h.fields.1 fun f hf =>
    field_takes (h.fields.2 f hf).1 (h.fields.2 f hf).2).bind ?_
  exact (list_takes h.globals fun idx _ => u32Raw_takes idx).map

theorem module_takes (h : ModuleFits n m) : Takes (readModule n) (writeModule m) m := by
  refine (str_takes h.moduleKey).bind ((Takes.array m.chunkSha256).bind ?_)
  exact (list_takes h.protos.1 fun p hp => proto_takes (h.protos.2 p hp)).map

theorem section_takes {s : PgoSection} (h : s.Fits) : Takes readSection s.encodePayload s := by
  refine (list_takes h.keyLists.1 fun ks hks => list_takes (h.keyLists.2 ks hks).1 fun k hk =>
    str_takes ((h.keyLists.2 ks hks).2 k hk)).bind ?_
  exact (list_takes h.modules.1 fun m hm => module_takes (h.modules.2 m hm)).map

end Pgo

theorem PgoSection.decode_encodePayload {s : PgoSection} (h : s.Fits)
    (hlen : s.encodePayload.length < 2 ^ 64) : decode s.encodePayload = some (some s) := by
  have hrun := Pgo.section_takes h ⟨s.encodePayload, 0⟩ [] (Cursor.within_start _)
    (by simpa using hlen) (List.append_nil _).symm
  rw [decode, hrun]

def TrailingSection.header (sec : TrailingSection) : List UInt8 :=
  sec.magic.val ++ (le 2 sec.version.toNat ++ le 4 sec.payload.length)

/-- A self-described frame. -/
def TrailingSection.encode (sec : TrailingSection) : List UInt8 := sec.header ++ sec.payload

theorem TrailingSection.length_header (sec : TrailingSection) : sec.header.length = 14 := by
  simp [header, sec.magic.property]

theorem length_frames :
    ∀ frames : List TrailingSection, frames.length ≤ (frames.flatMap TrailingSection.encode).length
  | [] => Nat.le_refl _
  | f :: frames => by
    rw [List.flatMap_cons, List.length_append, List.length_cons, TrailingSection.encode,
      List.length_append, f.length_header]
    have := length_frames frames
    omega

theorem toArray_eq (a : { bs : List UInt8 // bs.length = n }) : toArray n a.val = some a :=
  dif_pos a.property

theorem slice_of_drop {bytes : List UInt8} (h : bytes.drop pos = xs ++ rest)
    (hpos : pos ≤ bytes.length) :
    slice bytes pos (pos + xs.length) = some xs := by
  have hlen : (bytes.drop pos).length = xs.length + rest.length := by rw [h, List.length_append]
  rw [List.length_drop] at hlen
  rw [slice, if_pos ⟨by omega, by omega⟩, Nat.add_sub_cancel_left, h, List.take_left]

theorem drop_of_drop {bytes : List UInt8} (h : bytes.drop pos = xs ++ rest) :
    bytes.drop (pos + xs.length) = rest := by
  rw [← List.drop_drop, h, List.drop_left]

theorem scanFrom_frame {sec : TrailingSection} (hpos : pos ≤ bytes.length)
    (hdrop : bytes.drop pos = sec.encode ++ rest) (hlen : bytes.length < 2 ^ 64)
    (hpayload : sec.payload.length < 2 ^ 32) :
    scanFrom bytes (fuel + 1) pos acc =
      scanFrom bytes fuel (pos + sec.encode.length) (acc ++ [sec]) := by
  have hsize : bytes.length = pos + (14 + sec.payload.length + rest.length) := by
    have := congrArg List.length hdrop
    rw [List.length_drop, List.length_append, TrailingSection.encode, List.length_append,
      sec.length_header] at this
    omega
  have h₀ : bytes.drop pos = sec.magic.val ++ (le 2 sec.version.toNat ++
      (le 4 sec.payload.length ++ (sec.payload ++ rest))) := by
    rw [hdrop, TrailingSection.encode, TrailingSection.header]
    simp only [List.append_assoc]
  have hmagic := slice_of_drop h₀ hpos
  have h₁ := drop_of_drop h₀
  have h₂ := drop_of_drop h₁
  have h₃ := drop_of_drop h₂
  rw [sec.magic.property] at hmagic h₁ h₂ h₃
  rw [length_le] at h₂ h₃
  rw [length_le] at h₃
  have hslice := slice_of_drop h₃ (by omega)
  have hfits : pos + 8 + 2 + 4 + sec.payload.length < 2 ^ 64 ∧
      pos + 8 + 2 + 4 + sec.payload.length ≤ bytes.length := by omega
  have hword : sec.payload.length < 256 ^ 4 := hpayload
  have hversion : sec.version.toNat < 256 ^ 2 := sec.version.toNat_lt
  have hend : pos + sec.encode.length = pos + 8 + 2 + 4 + sec.payload.length := by
    rw [TrailingSection.encode, List.length_append, sec.length_header]
    omega
  rw [scanFrom, if_neg (by omega)]
  simp only [Option.bind_eq_bind, hmagic, Option.bind_some, toArray_eq, h₁,
    fromLe_le hversion, h₂, fromLe_le hword, hslice, if_pos hfits, UInt16.ofNat_toNat, hend]

theorem scanFrom_frames (hlen : bytes.length < 2 ^ 64) (htail : tail.length < 14) :
    ∀ (frames : List TrailingSection) (fuel pos : Nat) (acc : List TrailingSection),
    frames.length < fuel → pos ≤ bytes.length → (∀ f ∈ frames, f.payload.length < 2 ^ 32) →
    bytes.drop pos = frames.flatMap TrailingSection.encode ++ tail →
    scanFrom bytes fuel pos acc = some (acc ++ frames)
  | _, 0, _, _, hfuel, _, _, _ => absurd hfuel (Nat.not_lt_zero _)
  | [], fuel + 1, pos, acc, _, _, _, hdrop => by
    have hshort : bytes.length - pos < 14 := by
      rw [← List.length_drop, hdrop]
      exact htail
    rw [scanFrom, if_pos hshort, List.append_nil]
  | f :: frames, fuel + 1, pos, acc, hfuel, hpos, hfits, hdrop => by
    rw [List.flatMap_cons, List.append_assoc] at hdrop
    have hlen' := congrArg List.length hdrop
    rw [List.length_drop, List.length_append] at hlen'
    rw [scanFrom_frame hpos hdrop hlen (hfits f (.head frames)),
      scanFrom_frames hlen htail frames fuel _ _ (Nat.lt_of_succ_lt_succ hfuel) (by omega)
        (fun g hg => hfits g (.tail f hg)) (drop_of_drop hdrop),
      List.append_assoc, List.singleton_append]

theorem scanFrom_total (bytes : List UInt8) : ∀ (fuel pos : Nat) (acc : List TrailingSection),
    bytes.length - pos < fuel → ∃ r, scanFrom bytes fuel pos acc = some r
  | 0, _, _, hfuel => absurd hfuel (Nat.not_lt_zero _)
  | fuel + 1, pos, acc, hfuel => by
    by_cases hshort : bytes.length - pos < 14
    · exact ⟨acc, by rw [scanFrom, if_pos hshort]⟩
    have hslice : ∀ i j, i ≤ j → j ≤ bytes.length →
        slice bytes i j = some ((bytes.drop i).take (j - i)) := fun i j hi hj => if_pos ⟨hi, hj⟩
    have hmagic : ((bytes.drop pos).take (pos + 8 - pos)).length = 8 := by
      rw [List.length_take, List.length_drop]
      omega
    have hword : ∀ k i, i + k ≤ bytes.length →
        fromLe k (bytes.drop i) = some (ofLe ((bytes.drop i).take k)) := fun k i h =>
      fromLe_take (by rw [List.length_drop]; omega)
    rw [scanFrom, if_neg hshort]
    simp only [Option.bind_eq_bind, hslice pos (pos + 8) (by omega) (by omega), Option.bind_some,
      toArray, dif_pos hmagic, hword 2 (pos + 8) (by omega), hword 4 (pos + 8 + 2) (by omega)]
    split
    next hfits =>
      rw [hslice _ _ (by omega) hfits.2, Option.bind_some]
      exact scanFrom_total bytes fuel _ _ (by omega)
    next => exact ⟨acc, rfl⟩

theorem scanTrailingSections_total (bytes : List UInt8) (startOffset : Nat) :
    ∃ r, scanTrailingSections bytes startOffset = some r :=
  scanFrom_total bytes _ _ _ (by omega)

theorem firstPgo_total : ∀ sections, ∃ r, firstPgo sections = some r
  | [] => ⟨none, rfl⟩
  | sec :: sections => by
    rw [firstPgo]
    split
    · split
      · exact ⟨none, rfl⟩
      · exact PgoSection.decode_total sec.payload
    · exact firstPgo_total sections

theorem firstPgo_of_find {sections : List TrailingSection} {f : TrailingSection}
    (h : sections.find? (·.magic.val = pgoSectionMagic) = some f)
    (hv : f.version = pgoSectionVersion) : firstPgo sections = PgoSection.decode f.payload := by
  induction sections with
  | nil => cases h
  | cons sec sections ih =>
    rw [List.find?_cons] at h
    rw [firstPgo]
    by_cases hm : sec.magic.val = pgoSectionMagic
    · rw [decide_eq_true hm] at h
      cases h
      rw [if_pos hm, if_neg (not_not_intro hv)]
    · rw [decide_eq_false hm] at h
      rw [if_neg hm]
      exact ih h

theorem frame_eq {f : TrailingSection} {s : PgoSection} (h : f.encode = s.encode) :
    f.version = pgoSectionVersion ∧ f.payload = s.encodePayload := by
  have hhead : f.header ++ f.payload = (pgoSectionMagic ++ (le 2 pgoSectionVersion.toNat ++
      Pgo.writeU32 s.encodePayload.length)) ++ s.encodePayload := by
    simpa [TrailingSection.encode, PgoSection.encode] using h
  obtain ⟨hheader, hpayload⟩ := List.append_inj hhead (by rw [f.length_header]; rfl)
  refine ⟨?_, hpayload⟩
  obtain ⟨-, hrest⟩ := List.append_inj hheader (by rw [f.magic.property]; rfl)
  obtain ⟨hversion, -⟩ := List.append_inj hrest (by rw [length_le, length_le])
  have hnat := congrArg ofLe hversion
  rw [ofLe_le f.version.toNat_lt, ofLe_le pgoSectionVersion.toNat_lt] at hnat
  exact UInt16.toNat_inj.mp hnat

/-- An archive is read past whatever sections stand behind it, the scan finds just these, a profile
among them comes back, and no bytes lead a scan out of range or keep it from ending. -/
theorem archive_survives_sections :
    (∀ (a : ModuleArchive) (frames : List TrailingSection) (tail : List UInt8), a.Fits →
      (∀ f ∈ frames, f.payload.length < 2 ^ 32) → tail.length < 14 →
      (a.encode ++ (frames.flatMap TrailingSection.encode ++ tail)).length < 2 ^ 64 →
      ModuleArchive.decode (a.encode ++ (frames.flatMap TrailingSection.encode ++ tail)) =
          some (.ok a) ∧
        (∀ key, a.get key = some (firstStored a.modules key)) ∧
        scanTrailingSections (a.encode ++ (frames.flatMap TrailingSection.encode ++ tail))
          a.encode.length = some frames ∧
        ∀ (f : TrailingSection) (s : PgoSection), s.Fits →
          frames.find? (·.magic.val = pgoSectionMagic) = some f → f.encode = s.encode →
          findAndDecodePgo (a.encode ++ (frames.flatMap TrailingSection.encode ++ tail))
            a.encode.length = some (some s)) ∧
    ∀ (bytes : List UInt8) (startOffset : Nat), startOffset ≤ bytes.length →
      (∃ r, scanTrailingSections bytes startOffset = some r) ∧
        ∃ r, findAndDecodePgo bytes startOffset = some r := by
  refine ⟨fun a frames tail ha hframes htail hlen => ?_, fun bytes startOffset _ => ?_⟩
  · have hscan : scanTrailingSections (a.encode ++ (frames.flatMap TrailingSection.encode ++ tail))
        a.encode.length = some frames := by
      have hcount := length_frames frames
      refine scanFrom_frames hlen htail frames _ _ [] ?_ ?_ hframes (List.drop_left ..)
      · rw [List.length_append, List.length_append]
        omega
      · rw [List.length_append]
        omega
    refine ⟨?_, a.get_eq, hscan, fun f s hs hf he => ?_⟩
    · rw [List.length_append] at hlen
      rw [ModuleArchive.decode, Archive.read_takes ha ⟨_, 0⟩ _ (Cursor.within_start _) (by
        show 0 + _ < _; omega) (Cursor.rest_start _)]
      rfl
    · obtain ⟨hv, hp⟩ := frame_eq he
      have hpayload := hframes f (List.mem_of_find?_eq_some hf)
      rw [findAndDecodePgo, hscan, Option.bind_eq_bind, Option.bind_some, firstPgo_of_find hf hv,
        hp]
      rw [hp] at hpayload
      exact PgoSection.decode_encodePayload hs (Nat.lt_trans hpayload (by decide))
  · obtain ⟨r, hr⟩ := scanTrailingSections_total bytes startOffset
    refine ⟨⟨r, hr⟩, ?_⟩
    rw [findAndDecodePgo, hr, Option.bind_eq_bind, Option.bind_some]
    exact firstPgo_total r

def sampleArchive : ModuleArchive :=
  .new 0 .allGranted ⟨List.replicate 32 7, rfl⟩ [("main.as", [1, 2]), ("util.as", [3])]

def sampleProfile : PgoSection :=
  ⟨[["x", "y"]], [⟨"main.as", ⟨List.replicate 32 9, rfl⟩, [⟨[0], [(4, 1)], [(6, [0])], [2]⟩]⟩]⟩

def sampleFrames : List TrailingSection :=
  [⟨⟨List.replicate 8 1, rfl⟩, 3, [5, 5]⟩, ⟨⟨pgoSectionMagic, rfl⟩, 1, sampleProfile.encodePayload⟩]

theorem archive_survives_sections_profiled :
    scanTrailingSections (sampleArchive.encode ++
      (sampleFrames.flatMap TrailingSection.encode ++ [0]))
        sampleArchive.encode.length = some sampleFrames ∧
      findAndDecodePgo (sampleArchive.encode ++
        (sampleFrames.flatMap TrailingSection.encode ++ [0]))
        sampleArchive.encode.length = some (some sampleProfile) := by
  have hfits : sampleArchive.Fits := {
    entry := by decide
    count := by decide
    modules := by decide
    capsLen := by decide
    fsScope := nofun
    netScope := nofun }
  have hprofile : sampleProfile.Fits := {
    keyLists := by decide
    modules := by
      refine ⟨by decide, fun m hm => ?_⟩
      cases List.mem_singleton.mp hm
      refine ⟨by decide, by decide, fun p hp => ?_⟩
      cases List.mem_singleton.mp hp
      have harith : ∀ a ∈ [((4 : UInt32), (1 : UInt8))], a.2 ≤ 3 := by
        rintro a ha
        cases List.mem_singleton.mp ha
        decide
      have hfields : ∀ f ∈ [((6 : UInt32), [(0 : UInt32)])], f.2.length ≤ 255 ∧
          ∀ idx ∈ f.2, idx.toNat < 1 := by
        rintro f hf
        cases List.mem_singleton.mp hf
        refine ⟨by decide, fun idx hidx => ?_⟩
        cases List.mem_singleton.mp hidx
        decide
      exact ⟨by decide, ⟨by decide, harith⟩, ⟨by decide, hfields⟩, by decide⟩ }
  obtain ⟨-, -, hscan, hpgo⟩ := archive_survives_sections.1 sampleArchive sampleFrames [0] hfits
    (by decide +kernel) (by decide) (by decide +kernel)
  exact ⟨hscan, hpgo _ sampleProfile hprofile rfl (by decide +kernel)⟩

end AScript.Bundle
