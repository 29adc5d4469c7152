import AScript.Lib.Accepts
import AScript.Stdlib.Caps

namespace AScript.Stdlib

open AScript.Lib

theorem string_accepts : Accepts Cursor.string fun t used =>
    used = putStr t ∧ (utf8 t).length ≤ maxStringLen := by
  refine Accepts.word.bind ?_
  rintro len _ ⟨rfl, -⟩
  split
  next => exact .throw _
  next hlen =>
    refine Accepts.take.bind ?_
    rintro bytes _ ⟨rfl, rfl⟩
    split
    next t ht =>
      obtain rfl := utf8_of_ofUtf8 ht
      exact .pure ⟨by simp [putStr, putBytes], Nat.le_of_not_lt hlen⟩
    next => exact .throw _

theorem stringList_accepts : Accepts Cursor.stringList fun ts used =>
    used = writeStringList ts ∧ ts.length ≤ maxEntries ∧
      ∀ t ∈ ts, (utf8 t).length ≤ maxStringLen := by
  refine Accepts.word.bind ?_
  rintro count _ ⟨rfl, -⟩
  split
  next => exact .throw _
  next hcount =>
    refine (string_accepts.many count).mono ?_
    rintro ts _ ⟨rfl, rfl, hts⟩
    exact ⟨rfl, Nat.le_of_not_lt hcount, hts⟩

theorem scope_accepts {mode : UInt8 → Option δ} {byte : δ → UInt8}
    (hm : ∀ b d, mode b = some d → byte d = b) :
    Accepts (Cursor.scope mode) fun o used => used = writeScope byte o ∧ ∀ s ∈ o, s.Sized := by
  refine Accepts.u8.bind ?_
  rintro presence _ rfl
  split
  next => exact .pure ⟨rfl, nofun⟩
  next =>
    refine Accepts.u8.bind ?_
    rintro b _ rfl
    split
    next deny hdeny =>
      refine stringList_accepts.map ?_
      rintro allow _ ⟨rfl, hsized⟩
      refine ⟨by rw [writeScope, hm b deny hdeny], ?_⟩
      rintro _ ⟨⟩
      exact hsized
    next => exact .throw _
  next => exact .throw _

namespace CapSet

/-- Both allow-lists are within the limits of the decoder. -/
structure Sized (c : CapSet) : Prop where
  fs : ∀ s ∈ c.fsScope, s.Sized
  net : ∀ s ∈ c.netScope, s.Sized

theorem capSet_accepts : Accepts Cursor.capSet fun c used => used = c.toBytes ∧ c.Sized := by
  have hfs : Accepts Cursor.fsScope fun o used =>
      used = writeFsScope o ∧ ∀ s ∈ o, s.Sized := by
    refine scope_accepts fun b d h => ?_
    split at h <;> cases h <;> rfl
  have hnet : Accepts Cursor.netScope fun o used =>
      used = writeNetScope o ∧ ∀ s ∈ o, s.Sized := by
    refine scope_accepts fun b d h => ?_
    split at h <;> cases h <;> rfl
  refine Accepts.u8.bind ?_
  rintro bits _ rfl
  refine hfs.bind ?_
  rintro fsScope _ ⟨rfl, hf⟩
  refine hnet.map ?_
  rintro netScope _ ⟨rfl, hn⟩
  exact ⟨rfl, hf, hn⟩

theorem fromBytes_accepts (h : fromBytes b = .ok (c, n)) :
    ∃ rest, b = c.toBytes ++ rest ∧ n = c.toBytes.length ∧ c.Sized := by
  unfold fromBytes at h
  cases hread : Cursor.capSet (b, ()) with
  | error e =>
    rw [hread] at h
    cases h
  | ok r =>
    obtain ⟨_, rest, _⟩ := r
    rw [hread] at h
    cases h
    obtain ⟨_, rfl, rfl, hsized⟩ := capSet_accepts b () c rest _ hread
    exact ⟨rest, rfl, by simp, hsized⟩

theorem Sized.fromBytes_toBytes {c : CapSet} (h : c.Sized) (rest : List UInt8) :
    fromBytes (c.toBytes ++ rest) = .ok (c, c.toBytes.length) :=
  CapSet.fromBytes_toBytes h.fs h.net rest

theorem Sized.take_refused {c : CapSet} (h : c.Sized) (hk : k < c.toBytes.length) :
    ∃ e, fromBytes (c.toBytes.take k) = .error e := by
  cases hread : fromBytes (c.toBytes.take k) with
  | error e => exact ⟨e, rfl⟩
  | ok r =>
    obtain ⟨d, n⟩ := r
    obtain ⟨rest, htake, -, hd⟩ := fromBytes_accepts hread
    have hwhole : c.toBytes ++ [] = d.toBytes ++ (rest ++ c.toBytes.drop k) := by
      rw [List.append_nil, ← List.append_assoc, ← htake, List.take_append_drop]
    have hsame := (h.fromBytes_toBytes []).symm.trans (hwhole ▸ hd.fromBytes_toBytes _)
    obtain rfl : c = d := (Prod.mk.inj (Except.ok.inj hsame)).1
    have hlen := congrArg List.length htake
    rw [List.length_take_of_le (Nat.le_of_lt hk), List.length_append] at hlen
    omega

/-- Capability sets within the limits and their encodings: a set reads back whatever stands
behind it, what is accepted is the encoding of what it is read as, an encoding cut short is
refused, and different sets are written differently. -/
theorem codec_exact :
    (∀ c : CapSet, c.Sized → ∀ t, fromBytes (c.toBytes ++ t) = .ok (c, c.toBytes.length)) ∧
    (∀ b c n, fromBytes b = .ok (c, n) → n ≤ b.length ∧ c.toBytes = b.take n) ∧
    (∀ c : CapSet, c.Sized → ∀ k < c.toBytes.length,
      ∃ e, fromBytes (c.toBytes.take k) = .error e) ∧
    ∀ c d : CapSet, c.Sized → d.Sized → c.toBytes = d.toBytes → c = d := by
  refine ⟨fun c hc t => hc.fromBytes_toBytes t, fun b c n h => ?_, fun c hc k => hc.take_refused,
    fun c d hc hd he => ?_⟩
  · obtain ⟨rest, rfl, rfl, -⟩ := fromBytes_accepts h
    rw [List.length_append, List.take_left]
    exact ⟨Nat.le_add_right _ _, rfl⟩
  · have hread := (hc.fromBytes_toBytes []).symm.trans (he ▸ hd.fromBytes_toBytes [])
    exact (Prod.mk.inj (Except.ok.inj hread)).1

theorem codec_exact_carved :
    let c : CapSet := ⟨0b11100, some ⟨.all, ["./cache"]⟩, some ⟨.external, ["10.0.0.5"]⟩⟩
    fromBytes (c.toBytes ++ [42]) = .ok (c, c.toBytes.length) := by
  refine codec_exact.1 _ ⟨?_, ?_⟩ [42] <;>
    (rintro _ ⟨⟩; exact ⟨by decide, List.forall_mem_singleton.mpr (by decide)⟩)

end CapSet

end AScript.Stdlib
