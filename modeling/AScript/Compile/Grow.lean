import AScript.Compile.Code
import AScript.Lib.Checked

namespace AScript.Compile

open AScript.Lib AScript.Bytecode

theorem readU16_of_bytes {c : Chunk} (h₀ : c.code[i]? = some (.ofNat n))
    (h₁ : c.code[i + 1]? = some (.ofNat (n / 256))) (hn : n < 2 ^ 16) : c.readU16 i = n := by
  simp only [Chunk.readU16, Chunk.byte, h₀, h₁, Option.getD_some, UInt8.toNat_ofNat']
  omega

theorem readI16_of_bytes {c : Chunk} {d : Int}
    (h₀ : c.code[i]? = some (.ofNat (d % 2 ^ 16).toNat))
    (h₁ : c.code[i + 1]? = some (.ofNat ((d % 2 ^ 16).toNat / 256)))
    (hl : -2 ^ 15 ≤ d) (hu : d < 2 ^ 15) : c.readI16 i = d := by
  have hr := readU16_of_bytes h₀ h₁ (by omega)
  rw [Chunk.readI16, hr]
  split <;> omega

theorem jumpsTo_of_bytes {c : Chunk} {d : Int}
    (h₀ : c.code[i]? = some (.ofNat (d % 2 ^ 16).toNat))
    (h₁ : c.code[i + 1]? = some (.ofNat ((d % 2 ^ 16).toNat / 256)))
    (hl : -2 ^ 15 ≤ d) (hu : d < 2 ^ 15) (ht : (i + 2 : Nat) + d = (target : Nat)) :
    JumpsTo c i target := by
  rw [JumpsTo, readI16_of_bytes h₀ h₁ hl hu, ht]

def addBreaks (sites : List Nat) (loops : List LoopCtx) : List LoopCtx :=
  loops.modifyHead fun l => { l with breakSites := l.breakSites ++ sites }

@[simp] theorem addBreaks_nil (loops : List LoopCtx) : addBreaks [] loops = loops := by
  cases loops <;> simp [addBreaks]

theorem addBreaks_append (sites sites' : List Nat) (loops : List LoopCtx) :
    addBreaks (sites ++ sites') loops = addBreaks sites' (addBreaks sites loops) := by
  cases loops <;> simp [addBreaks]

structure Grows (c c' : Compiler) (holes breaks : List Nat) : Prop where
  loops : c'.loops = addBreaks breaks c.loops
  code : c.code <+: c'.code
  consts : c.consts <+: c'.consts
  overflow : c'.overflow = none → c.overflow = none
  within : ∀ s ∈ holes, c.pos ≤ s ∧ s + 2 ≤ c'.pos
  apart : holes.Pairwise fun s s' => s + 2 ≤ s'

structure Fills (C : Chunk) (c : Compiler) (a : Nat) (holes : List Nat) : Prop where
  code : ∀ i, a ≤ i → i < c.pos → (∀ s ∈ holes, i ≠ s ∧ i ≠ s + 1) → C.code[i]? = c.code[i]?
  consts : c.consts.map Literal.const <+: C.consts

variable {C : Chunk} {c c' c'' : Compiler} {holes holes' breaks breaks' : List Nat} {a : Nat}
  {P Q : Chunk → Prop}

namespace Grows

theorem pos_le (h : Grows c c' holes breaks) : c.pos ≤ c'.pos := h.code.length_le

theorem refl (c : Compiler) : Grows c c [] [] :=
  ⟨by simp, List.prefix_rfl, List.prefix_rfl, id, by simp, .nil⟩

theorem trans (h : Grows c c' holes breaks) (h' : Grows c' c'' holes' breaks') :
    Grows c c'' (holes ++ holes') (breaks ++ breaks') where
  loops := by rw [h'.loops, h.loops, addBreaks_append]
  code := h.code.trans h'.code
  consts := h.consts.trans h'.consts
  overflow ho := h.overflow (h'.overflow ho)
  within s hs := by
    have hl := h.pos_le
    have hl' := h'.pos_le
    rcases List.mem_append.mp hs with hs | hs
    · have := h.within s hs
      omega
    · have := h'.within s hs
      omega
  apart := List.pairwise_append.mpr ⟨h.apart, h'.apart, fun s hs s' hs' =>
    Nat.le_trans (h.within s hs).2 (h'.within s' hs').1⟩

end Grows

namespace Fills

theorem left (hf : Fills C c' a (holes ++ holes')) (h : Grows c c' holes' breaks) :
    Fills C c a holes where
  code i ha hi hs := by
    rw [hf.code i ha (Nat.lt_of_lt_of_le hi h.pos_le) fun s hm => ?_]
    · obtain ⟨t, ht⟩ := h.code
      rw [← ht, List.getElem?_append_left hi]
    · rcases List.mem_append.mp hm with hm | hm
      · exact hs s hm
      · have := h.within s hm
        omega
  consts := (h.consts.map _).trans hf.consts

theorem right (hf : Fills C c' a (holes ++ holes')) (ha : a ≤ c.pos)
    (h : ∀ s ∈ holes, s + 2 ≤ c.pos) : Fills C c' c.pos holes' where
  code i hi hi' hs := hf.code i (Nat.le_trans ha hi) hi' fun s hm => by
    rcases List.mem_append.mp hm with hm | hm
    · have := h s hm
      omega
    · exact hs s hm
  consts := hf.consts

theorem const (hf : Fills C c a holes) {i : Nat} (h : c.consts[i]? = some l) :
    C.consts[i]? = some l.const := by
  obtain ⟨t, ht⟩ := hf.consts
  have hi := (List.getElem?_eq_some_iff.mp h).1
  rw [← ht, List.getElem?_append_left (by rwa [List.length_map]), List.getElem?_map, h]
  rfl

end Fills

def Lays (c c' : Compiler) (holes breaks : List Nat) (P : Chunk → Prop) : Prop :=
  Grows c c' holes breaks ∧ ∀ C, c'.overflow = none → Fills C c' c.pos holes → P C

namespace Lays

theorem mono (h : Lays c c' holes breaks P) (hi : ∀ C, P C → Q C) : Lays c c' holes breaks Q :=
  ⟨h.1, fun C ho hf => hi C (h.2 C ho hf)⟩

theorem seq (h : Lays c c' holes breaks P) (h' : Lays c' c'' holes' breaks' Q) :
    Lays c c'' (holes ++ holes') (breaks ++ breaks') fun C => P C ∧ Q C :=
  ⟨h.1.trans h'.1, fun C ho hf => ⟨h.2 C (h'.1.overflow ho) (hf.left h'.1),
    h'.2 C ho (hf.right h.1.pos_le fun s hs => (h.1.within s hs).2)⟩⟩

theorem refl (c : Compiler) : Lays c c [] [] fun _ => True := ⟨.refl c, fun _ _ _ => trivial⟩

end Lays

namespace Compiler

@[simp] theorem pos_write (c : Compiler) (bytes : List UInt8) :
    (c.write bytes).pos = c.pos + bytes.length := by
  simp [write, pos]

theorem grows_write (c : Compiler) (bytes : List UInt8) : Grows c (c.write bytes) [] [] :=
  ⟨by simp [write], List.prefix_append _ _, List.prefix_rfl, id, by simp, .nil⟩

theorem fills_write {bytes : List UInt8} {j : Nat} (hf : Fills C (c.write bytes) c.pos holes)
    (hj : j < bytes.length) (hs : ∀ s ∈ holes, c.pos + j ≠ s ∧ c.pos + j ≠ s + 1) :
    C.code[c.pos + j]? = bytes[j]? := by
  rw [hf.code _ (Nat.le_add_right _ _) (by rw [pos_write]; omega) hs]
  rw [pos, write, List.getElem?_append_right (Nat.le_add_right _ _), Nat.add_sub_cancel_left]

theorem recordOverflow_ne (c : Compiler) (l : ChunkLimit) :
    (c.recordOverflow l).overflow ≠ none := by
  cases h : c.overflow <;> simp [recordOverflow, h]

theorem decode_toU8 {p : Nat} {op : Op} (h : C.code[p]? = some op.toU8) :
    (C.code[p]?).bind Op.fromU8 = some op := by
  rw [h, Option.bind_some, Op.fromU8_toU8]

theorem lays_emit (c : Compiler) (op : Op) (hw : op.operandWidth = 0) :
    Lays c (c.emit op) [] [] fun C => OpAt C op c.pos (c.emit op).pos := by
  refine ⟨c.grows_write _, fun C _ hf => ⟨decode_toU8 ?_, ?_⟩⟩
  · exact fills_write (j := 0) hf (by simp) (by simp)
  · rw [emit, pos_write, hw]
    rfl

theorem lays_emitU16 (c : Compiler) (op : Op) (hw : op.operandWidth = 2) (hk : k < 2 ^ 16) :
    Lays c (c.emitU16 op k) [] [] fun C => OpU16 C op k c.pos (c.emitU16 op k).pos := by
  refine ⟨c.grows_write _, fun C _ hf => ⟨⟨decode_toU8 ?_, ?_⟩, readU16_of_bytes ?_ ?_ hk⟩⟩
  · exact fills_write (j := 0) hf (by simp) (by simp)
  · rw [emitU16, pos_write, hw]
    rfl
  · exact fills_write (j := 1) hf (by simp [u16Bytes]) (by simp)
  · exact fills_write (j := 2) hf (by simp [u16Bytes]) (by simp)

theorem lays_emitU8 (c : Compiler) (op : Op) (hw : op.operandWidth = 1) (hk : k < 2 ^ 8) :
    Lays c (c.emitU8 op k) [] [] fun C => OpU8 C op k c.pos (c.emitU8 op k).pos := by
  refine ⟨c.grows_write _, fun C _ hf => ⟨⟨decode_toU8 ?_, ?_⟩, ?_⟩⟩
  · exact fills_write (j := 0) hf (by simp) (by simp)
  · rw [emitU8, pos_write, hw]
    rfl
  · have h := fills_write (j := 1) hf (by simp) (by simp)
    simp only [Chunk.readU8, Chunk.byte, h, List.getElem?_cons_succ, List.getElem?_cons_zero,
      Option.getD_some, UInt8.toNat_ofNat']
    omega

theorem lays_emitU16U8 (c : Compiler) (op : Op) (hw : op.operandWidth = 3) (hk : k < 2 ^ 16)
    (b : Bool) : Lays c (c.emitU16U8 op k b.toNat) [] [] fun C =>
      OpU16 C op k c.pos (c.emitU16U8 op k b.toNat).pos ∧
        (C.readU8 (c.pos + 3) ≠ 0 ↔ b = true) := by
  refine ⟨c.grows_write _,
    fun C _ hf => ⟨⟨⟨decode_toU8 ?_, ?_⟩, readU16_of_bytes ?_ ?_ hk⟩, ?_⟩⟩
  · exact fills_write (j := 0) hf (by simp) (by simp)
  · rw [emitU16U8, pos_write, hw]
    rfl
  · exact fills_write (j := 1) hf (by simp [u16Bytes]) (by simp)
  · exact fills_write (j := 2) hf (by simp [u16Bytes]) (by simp)
  · have h : C.code[c.pos + 3]? = some (.ofNat b.toNat) :=
      fills_write (j := 3) hf (by simp [u16Bytes]) (by simp)
    rw [Chunk.readU8, Chunk.byte, h]
    cases b <;> decide

theorem lays_emitJump (c : Compiler) (op : Op) (hw : op.operandWidth = 2) :
    Lays c (c.emitJump op).2 [(c.emitJump op).1] [] fun C =>
      OpAt C op c.pos (c.emitJump op).2.pos := by
  have hg : Grows c (c.emitJump op).2 [] [] := c.grows_write _
  refine ⟨⟨hg.loops, hg.code, hg.consts, hg.overflow, ?_, List.pairwise_singleton _ _⟩,
    fun C _ hf => ⟨decode_toU8 ?_, ?_⟩⟩
  · simp [emitJump, i16Bytes, u16Bytes]
  · refine fills_write (j := 0) hf (by simp) fun s hs => ?_
    obtain rfl := List.mem_singleton.mp hs
    simp only [emitJump]
    omega
  · rw [emitJump, pos_write, hw]
    rfl

theorem fitI16_of_none {c : Compiler} (h : (c.fitI16 l d).2.overflow = none) :
    c.fitI16 l d = (d, c) ∧ -2 ^ 15 ≤ d ∧ d < 2 ^ 15 := by
  unfold fitI16 at h ⊢
  split
  · next hd => exact ⟨rfl, hd⟩
  · next hd =>
    rw [if_neg hd] at h
    exact absurd h (c.recordOverflow_ne l)

theorem code_fitI16 (c : Compiler) (l : ChunkLimit) (d : Int) : (c.fitI16 l d).2.code = c.code := by
  unfold fitI16
  split <;> rfl

theorem grows_fitI16 (c : Compiler) (l : ChunkLimit) (d : Int) :
    Grows c (c.fitI16 l d).2 [] [] := by
  refine ⟨?_, by rw [code_fitI16], ?_, fun h => ?_, by simp, .nil⟩
  · unfold fitI16
    split <;> simp [recordOverflow]
  · unfold fitI16
    split <;> exact List.prefix_rfl
  · have hd := (fitI16_of_none h).1
    rwa [hd] at h

theorem lays_emitLoop (c : Compiler) (target : Nat) :
    Lays c (c.emitLoop target) [] [] fun C =>
      OpJump C .loop target c.pos (c.emitLoop target).pos := by
  have hg := c.grows_fitI16 .loop (target - (c.pos + 3))
  refine ⟨hg.trans (grows_write _ _), fun C ho hf => ?_⟩
  obtain ⟨hd, hl, hu⟩ := fitI16_of_none (c := c) (l := .loop) (d := target - (c.pos + 3)) ho
  have he : c.emitLoop target
      = c.write (Op.loop.toU8 :: i16Bytes (target - (c.pos + 3))) := by
    rw [emitLoop, hd]
  rw [he] at hf ⊢
  refine ⟨⟨decode_toU8 ?_, ?_⟩, jumpsTo_of_bytes ?_ ?_ hl hu ?_⟩
  · exact fills_write (j := 0) hf (by simp) (by simp)
  · rw [pos_write]
    rfl
  · exact fills_write (j := 1) hf (by simp [i16Bytes, u16Bytes]) (by simp)
  · exact fills_write (j := 2) hf (by simp [i16Bytes, u16Bytes]) (by simp)
  · push_cast
    omega

theorem fitConst_of_none {c : Compiler} (h : (c.fitConst i).2.overflow = none) :
    c.fitConst i = (i, c) ∧ i < 2 ^ 16 := by
  unfold fitConst at h ⊢
  split
  · next hi => exact ⟨rfl, hi⟩
  · next hi =>
    rw [if_neg hi] at h
    exact absurd h (c.recordOverflow_ne .consts)

theorem fitConst_fields (c : Compiler) (i : Nat) :
    (c.fitConst i).2.code = c.code ∧ (c.fitConst i).2.consts = c.consts ∧
      (c.fitConst i).2.loops = c.loops := by
  unfold fitConst
  split <;> exact ⟨rfl, rfl, rfl⟩

theorem grows_fitConst (c : Compiler) (i : Nat) : Grows c (c.fitConst i).2 [] [] := by
  obtain ⟨hc, hk, hl⟩ := c.fitConst_fields i
  refine ⟨by rw [hl, addBreaks_nil], by rw [hc], by rw [hk], fun h => ?_, by simp, .nil⟩
  have hd := (fitConst_of_none h).1
  rwa [hd] at h

theorem pos_addConst (c : Compiler) (l : Literal) : (c.addConst l).2.pos = c.pos := by
  unfold addConst
  split <;> exact congrArg List.length (c.fitConst_fields _).1

theorem lays_addConst (c : Compiler) (l : Literal) :
    Lays c (c.addConst l).2 [] [] fun C =>
      (c.addConst l).1 < 2 ^ 16 ∧ C.consts[(c.addConst l).1]? = some l.const := by
  unfold addConst
  split
  · next i hi =>
    refine ⟨c.grows_fitConst i, fun C ho hf => ?_⟩
    obtain ⟨he, hlt⟩ := fitConst_of_none ho
    rw [he] at hf ⊢
    split at hi
    · obtain ⟨hin, hget, -⟩ := List.findIdx?_eq_some_iff_getElem.mp hi
      rw [beq_iff_eq] at hget
      exact ⟨hlt, hf.const (by rw [List.getElem?_eq_getElem hin, hget])⟩
    · cases hi
  · have hg := c.grows_fitConst c.consts.length
    rcases hd : c.fitConst c.consts.length with ⟨i, d⟩
    rw [hd] at hg
    have hpush : Grows d { d with consts := d.consts ++ [l] } [] [] :=
      ⟨by simp, List.prefix_rfl, List.prefix_append _ _, id, by simp, .nil⟩
    dsimp only
    refine ⟨hg.trans hpush, fun C ho hf => ?_⟩
    obtain ⟨he, hlt⟩ := fitConst_of_none (c := c) (i := c.consts.length) (by rw [hd]; exact ho)
    rw [hd] at he
    cases he
    exact ⟨hlt, hf.const (by simp)⟩

theorem pos_overwrite (c : Compiler) (site : Nat) (lo hi : UInt8) :
    (c.overwrite site [lo, hi]).pos = c.pos := by
  simp [overwrite, pos]

theorem code_overwrite (c : Compiler) {site i : Nat} (lo hi : UInt8) (h₀ : i ≠ site)
    (h₁ : i ≠ site + 1) : (c.overwrite site [lo, hi]).code[i]? = c.code[i]? := by
  simp only [overwrite]
  rw [List.getElem?_set_ne h₁.symm, List.getElem?_set_ne h₀.symm]

theorem pos_patchJump (c : Compiler) (site : Nat) : (c.patchJump site).pos = c.pos := by
  rw [patchJump]
  exact (pos_overwrite _ _ _ _).trans (congrArg List.length (c.code_fitI16 _ _))

theorem pos_patchJumps (c : Compiler) (sites : List Nat) : (c.patchJumps sites).pos = c.pos := by
  induction sites generalizing c with
  | nil => rfl
  | cons s ss ih => exact (ih _).trans (c.pos_patchJump s)

end Compiler

open Compiler

theorem Lays.patch {before after : List Nat} {site : Nat}
    (h : Lays c c' (before ++ site :: after) breaks P) :
    Lays c (c'.patchJump site) (before ++ after) breaks fun C => P C ∧ JumpsTo C site c'.pos := by
  have hsite := h.1.within site (by simp)
  have hsub : ∀ s ∈ before ++ after, s ∈ before ++ site :: after := fun s hs => by
    rcases List.mem_append.mp hs with hs | hs
    · exact List.mem_append_left _ hs
    · exact List.mem_append_right _ (.tail _ hs)
  obtain ⟨hb, ha, hba⟩ := List.pairwise_append.mp h.1.apart
  obtain ⟨hsa, ha⟩ := List.pairwise_cons.mp ha
  have hclear : ∀ s ∈ before ++ after, s + 2 ≤ site ∨ site + 2 ≤ s := fun s hs => by
    rcases List.mem_append.mp hs with hs | hs
    · exact .inl (hba s hs site (.head _))
    · exact .inr (hsa s hs)
  have hgrow : ∀ (d : Compiler) (lo hi : UInt8), Grows c d (before ++ site :: after) breaks →
      Grows c (d.overwrite site [lo, hi]) (before ++ after) breaks := by
    intro d lo hi hd
    refine ⟨hd.loops, ?_, hd.consts, hd.overflow, fun s hs => ?_, ?_⟩
    · rw [List.prefix_iff_getElem?]
      intro i hi
      rw [code_overwrite, List.prefix_iff_getElem?.mp hd.code i hi] <;>
        · have : i < c.pos := hi
          omega
    · rw [pos_overwrite]
      exact hd.within s (hsub s hs)
    · exact List.pairwise_append.mpr ⟨hb, ha, fun s hs s' hs' => hba s hs s' (.tail _ hs')⟩
  refine ⟨?_, fun C ho hf => ?_⟩
  · have hfit := h.1.trans (c'.grows_fitI16 .jump (c'.pos - (site + 2)))
    rw [List.append_nil, List.append_nil] at hfit
    exact hgrow _ _ _ hfit
  obtain ⟨hd, hl, hu⟩ := fitI16_of_none (c := c') (l := .jump) (d := c'.pos - (site + 2)) ho
  have he : c'.patchJump site = c'.overwrite site (i16Bytes (c'.pos - (site + 2))) := by
    rw [patchJump, hd]
  rw [he] at ho hf
  have hpos : (c'.overwrite site (i16Bytes (c'.pos - (site + 2)))).pos = c'.pos :=
    pos_overwrite _ _ _ _
  have hbytes : ∀ j < 2, C.code[site + j]?
      = (i16Bytes ((c'.pos : Int) - (site + 2)))[j]? := by
    intro j hj
    have hlen : site + 2 ≤ c'.code.length := hsite.2
    rw [hf.code (site + j) (by omega) (by rw [hpos]; omega) fun s hs => by
      have := hclear s hs
      omega]
    simp only [overwrite, i16Bytes, u16Bytes]
    obtain rfl | rfl : j = 0 ∨ j = 1 := by omega
    · rw [show site + 0 = site from rfl, List.getElem?_set_ne (by omega),
        List.getElem?_set_self (by omega)]
      rfl
    · rw [List.getElem?_set_self (by rw [List.length_set]; omega)]
      rfl
  refine ⟨h.2 C ho ⟨fun i hi hi' hs => ?_, hf.consts⟩,
    jumpsTo_of_bytes (hbytes 0 (by omega)) (hbytes 1 (by omega)) hl hu (by push_cast; omega)⟩
  have hne := hs site (by simp)
  rw [hf.code i hi (by rw [hpos]; exact hi') fun s hm => hs s (hsub s hm)]
  exact code_overwrite _ _ _ hne.1 hne.2

theorem Lays.patchHead (h : Lays c c' (site :: holes) breaks P) :
    Lays c (c'.patchJump site) holes breaks fun C => P C ∧ JumpsTo C site c'.pos := by
  have h' : Lays c c' ([] ++ site :: holes) breaks P := h
  exact h'.patch

theorem Lays.patchAll (h : Lays c c' holes breaks P) :
    Lays c (c'.patchJumps holes) [] breaks fun C =>
      P C ∧ ∀ s ∈ holes, JumpsTo C s c'.pos := by
  induction holes generalizing c' P with
  | nil => exact h.mono fun C hp => ⟨hp, by simp⟩
  | cons s ss ih =>
    refine (ih h.patchHead).mono fun C ⟨⟨hp, hs⟩, hss⟩ => ⟨hp, List.forall_mem_cons.mpr ⟨hs, ?_⟩⟩
    rwa [pos_patchJump] at hss

end AScript.Compile
