import AScript.Bytecode.IndexSafety

/-! Decoded records and superinstructions (`vm/decode.rs`). Code offsets and record indices
are natural numbers. -/

namespace AScript.Bytecode

open AScript.Lib

inductive FusedKind
  | getLocalGetProp
  | getLocalGetLocal
  | getLocalConst
  | getPropAdd
  | constGetLocal
  | getLocalGetPropAdd
  deriving DecidableEq

def FusedKind.components : FusedKind → List Op
  | .getLocalGetProp => [.getLocal, .getProp]
  | .getLocalGetLocal => [.getLocal, .getLocal]
  | .getLocalConst => [.getLocal, .const]
  | .getPropAdd => [.getProp, .add]
  | .constGetLocal => [.const, .getLocal]
  | .getLocalGetPropAdd => [.getLocal, .getProp, .add]

inductive DOp
  | base (op : Op)
  | fused (kind : FusedKind)
  deriving DecidableEq

structure DecodedInstr where
  op : DOp
  a : Nat
  b : Nat
  off : Nat

def fusionCandidates : List (List Op × FusedKind) :=
  [([.getLocal, .getProp, .add], .getLocalGetPropAdd), ([.getLocal, .getProp], .getLocalGetProp),
    ([.getLocal, .getLocal], .getLocalGetLocal), ([.getLocal, .const], .getLocalConst),
    ([.getProp, .add], .getPropAdd), ([.const, .getLocal], .constGetLocal)]

def isBlockTerminatorOp : Op → Bool
  | .jump | .jumpIfFalse | .jumpIfTrue | .jumpIfNotNil | .loop | .jumpIfArgSupplied | .«return»
  | .propagate | .yield | .unwrap | .matchNoArm | .call | .callElided | .callSpread | .callMethod
  | .callMethodSpread | .callNamed | .callNamedSpread | .await | .iterNext | .getIter | .«import»
  | .«break» => true
  | _ => false

namespace Chunk

def decodeOperands (c : Chunk) (o : Nat) (op : Op) : Option (Nat × Nat) :=
  match op with
  | .jump | .jumpIfFalse | .jumpIfTrue | .jumpIfNotNil | .loop => some (0, 0)
  | .jumpIfArgSupplied => some (c.readU16 o, 0)
  | .callMethod | .matchArray | .defineGlobal | .callNamed => some (c.readU16 o, c.readU8 (o + 2))
  | .deferPushMethod => some (c.readU16 o, c.readU8 (o + 2) + 256 * c.readU8 (o + 3))
  | .deferPush => some (c.readU8 o + 256 * c.readU8 (o + 1), 0)
  | op =>
    match op.operandWidth with
    | 0 => some (0, 0)
    | 1 => some (c.readU8 o, 0)
    | 2 => some (c.readU16 o, 0)
    | _ => none

def jumpFixup (c : Chunk) (o : Nat) : Op → Option Int
  | .jump | .jumpIfFalse | .jumpIfTrue | .jumpIfNotNil | .loop =>
    some (((o + 2 : Nat) : Int) + c.readI16 o)
  | .jumpIfArgSupplied => some (((o + 4 : Nat) : Int) + c.readI16 (o + 2))
  | _ => none

def decodeWalk (c : Chunk) : Nat → Nat → Option (List (DecodedInstr × Option Int))
  | 0, _ => some []
  | fuel + 1, ip =>
    match c.code[ip]? with
    | none => some []
    | some byte => do
      let op ← Op.fromU8 byte
      if ip + 1 + op.operandWidth > c.code.length then none
      else
        let (a, b) ← c.decodeOperands (ip + 1) op
        let rest ← c.decodeWalk fuel (ip + 1 + op.operandWidth)
        some ((⟨.base op, a, b, ip⟩, c.jumpFixup (ip + 1) op) :: rest)

end Chunk

namespace DecodedInstr

def indexOf (rs : List DecodedInstr) (off : Nat) : Option Nat := rs.findIdx? fun r => r.off = off

def resolveTarget (rs : List DecodedInstr) (target : Int) : Option Nat :=
  if target < 0 ∨ 2 ^ 32 ≤ target then none else indexOf rs target.toNat

def setTarget (r : DecodedInstr) (t : Nat) : DecodedInstr :=
  if r.op = .base .jumpIfArgSupplied then { r with b := t } else { r with a := t }

def resolveJumps (rs : List DecodedInstr) :
    List (DecodedInstr × Option Int) → Option (List DecodedInstr × List Nat)
  | [] => some ([], [])
  | (r, none) :: ps => do
    let (out, ts) ← resolveJumps rs ps
    some (r :: out, ts)
  | (r, some target) :: ps => do
    let t ← resolveTarget rs target
    let (out, ts) ← resolveJumps rs ps
    some (r.setTarget t :: out, t :: ts)

def tryMatch (targets : List Nat) : Nat → List Op → List DecodedInstr → Bool
  | _, [], _ => true
  | _, _ :: _, [] => false
  | _, [want], r :: _ => r.op = .base want
  | idx, want :: seq, r :: rs =>
    r.op = .base want && !isBlockTerminatorOp want && !targets.contains (idx + 1) &&
      tryMatch targets (idx + 1) seq rs

def makeFused (run : List DecodedInstr) (kind : FusedKind) : DecodedInstr where
  op := .fused kind
  a := (run[0]?.map (·.a)).getD 0 % 2 ^ 16 + 2 ^ 16 * ((run[1]?.map (·.a)).getD 0 % 2 ^ 16)
  b := 0
  off := (run[0]?.map (·.off)).getD 0

def fuseFrom (targets : List Nat) : Nat → Nat → List DecodedInstr → List DecodedInstr
  | 0, _, rs => rs
  | _ + 1, _, [] => []
  | fuel + 1, i, r :: rs =>
    match fusionCandidates.find? fun form => tryMatch targets i form.1 (r :: rs) with
    | some (seq, kind) =>
      makeFused ((r :: rs).take seq.length) kind ::
        fuseFrom targets fuel (i + seq.length) ((r :: rs).drop seq.length)
    | none => r :: fuseFrom targets fuel (i + 1) rs

def fuseRecords (targets : List Nat) (rs : List DecodedInstr) : List DecodedInstr :=
  fuseFrom targets rs.length 0 rs

end DecodedInstr

namespace Chunk

open DecodedInstr (resolveJumps fuseRecords)

/-- The records before fusion and the indices that are jumped to. -/
def decodeRecords (c : Chunk) : Option (List DecodedInstr × List Nat) := do
  let ps ← c.decodeWalk c.code.length 0
  resolveJumps (ps.map Prod.fst) ps

def decodeChunk (c : Chunk) : Option (List DecodedInstr) :=
  c.decodeRecords.map fun p => fuseRecords p.2 p.1

inductive Aligned (c : Chunk) : Nat → List DecodedInstr → Prop
  | nil : Aligned c c.code.length []
  | cons : (c.code[off]?).bind Op.fromU8 = some op →
      off + 1 + op.operandWidth ≤ c.code.length →
      (c.jumpFixup (off + 1) op = none → c.decodeOperands (off + 1) op = some (a, b)) →
      Aligned c (off + 1 + op.operandWidth) rs → Aligned c off (⟨.base op, a, b, off⟩ :: rs)

theorem decodeWalk_succ {c : Chunk} (h : c.decodeWalk (k + 1) ip = some ps) :
    (c.code[ip]? = none ∧ ps = []) ∨
      ∃ op a b rest, (c.code[ip]?).bind Op.fromU8 = some op ∧
        ip + 1 + op.operandWidth ≤ c.code.length ∧
        c.decodeOperands (ip + 1) op = some (a, b) ∧
        c.decodeWalk k (ip + 1 + op.operandWidth) = some rest ∧
        ps = (⟨.base op, a, b, ip⟩, c.jumpFixup (ip + 1) op) :: rest := by
  rw [decodeWalk] at h
  split at h
  next hn =>
    cases h
    exact .inl ⟨hn, rfl⟩
  next byte hb =>
    obtain ⟨op, hop, h⟩ := Option.bind_eq_some_iff.mp h
    split at h
    · cases h
    next hw =>
      obtain ⟨⟨a, b⟩, hab, h⟩ := Option.bind_eq_some_iff.mp h
      obtain ⟨rest, hr, h⟩ := Option.bind_eq_some_iff.mp h
      cases h
      exact .inr ⟨op, a, b, rest, by rw [hb, Option.bind_some, hop], by omega, hab, hr, rfl⟩

end Chunk

def DecodedInstr.Resolved (rs : List DecodedInstr) (ts : List Nat) (p : DecodedInstr × Option Int)
    (r : DecodedInstr) : Prop :=
  r.op = p.1.op ∧ r.off = p.1.off ∧ (p.2 = none → r = p.1) ∧
    ∀ target ∈ p.2, ∃ t ∈ ts, resolveTarget rs target = some t

theorem DecodedInstr.Resolved.mono (h : Resolved rs ts p r) (hs : ts ⊆ ts') :
    Resolved rs ts' p r :=
  ⟨h.1, h.2.1, h.2.2.1, fun target ht => by
    obtain ⟨t, hm, hr⟩ := h.2.2.2 target ht
    exact ⟨t, hs hm, hr⟩⟩

theorem DecodedInstr.resolveJumps_spec (h : resolveJumps rs ps = some (out, ts)) :
    List.Forall₂ (Resolved rs ts) ps out := by
  induction ps generalizing out ts with
  | nil =>
    cases h
    exact .nil
  | cons p ps ih =>
    obtain ⟨r, target⟩ := p
    cases target with
    | none =>
      obtain ⟨⟨out', ts'⟩, hr, h⟩ := Option.bind_eq_some_iff.mp h
      cases h
      exact .cons ⟨rfl, rfl, fun _ => rfl, fun _ ht => nomatch ht⟩ (ih hr)
    | some target =>
      obtain ⟨t, ht, h⟩ := Option.bind_eq_some_iff.mp h
      obtain ⟨⟨out', ts'⟩, hr, h⟩ := Option.bind_eq_some_iff.mp h
      cases h
      have hset : (r.setTarget t).op = r.op ∧ (r.setTarget t).off = r.off := by
        unfold setTarget
        split <;> exact ⟨rfl, rfl⟩
      refine .cons ⟨hset.1, hset.2, fun hn => (nomatch hn), fun _ h' => ?_⟩
        ((ih hr).imp fun _ _ h' => h'.mono (List.subset_cons_self _ _))
      cases h'
      exact ⟨t, List.mem_cons_self, ht⟩

namespace Chunk

open DecodedInstr (Resolved resolveJumps_spec)

variable {c : Chunk}

theorem aligned_of_resolved (h : c.decodeWalk k ip = some ps) (hip : ip ≤ c.code.length)
    (hk : c.code.length ≤ ip + k) (hr : List.Forall₂ (Resolved rs ts) ps out) :
    c.Aligned ip out := by
  induction k generalizing ip ps out with
  | zero =>
    cases h
    cases hr
    obtain rfl : ip = c.code.length := by omega
    exact .nil
  | succ k ih =>
    obtain ⟨hn, rfl⟩ | ⟨op, a, b, rest, hop, hw, hab, hrest, rfl⟩ := decodeWalk_succ h
    · cases hr
      obtain rfl : ip = c.code.length := by
        have := List.getElem?_eq_none_iff.mp hn
        omega
      exact .nil
    · cases hr with
      | cons hp hr =>
        rename_i r out
        obtain ⟨rop, ra, rb, roff⟩ := r
        obtain ⟨hrop, hroff, hnone, -⟩ := hp
        simp only at hrop hroff
        subst hrop hroff
        refine .cons hop hw (fun hj => ?_) (ih hrest hw (by omega) hr)
        have := hnone hj
        cases this
        exact hab

theorem decodeRecords_aligned (h : c.decodeRecords = some (rs, ts)) : c.Aligned 0 rs := by
  obtain ⟨ps, hps, h⟩ := Option.bind_eq_some_iff.mp h
  exact aligned_of_resolved hps (Nat.zero_le _) (by omega) (resolveJumps_spec h)

end Chunk

def DOp.components : DOp → List Op
  | .base op => [op]
  | .fused kind => kind.components

/-- The offsets of the components after the first. -/
def laterOffsets : Nat → List Op → List Nat
  | _, [] => []
  | _, [_] => []
  | off, op :: op' :: ops =>
    (off + 1 + op.operandWidth) :: laterOffsets (off + 1 + op.operandWidth) (op' :: ops)

namespace DecodedInstr

inductive Fuses (targets : List Nat) : Nat → List DecodedInstr → List DecodedInstr → Prop
  | nil : Fuses targets i [] []
  | keep : Fuses targets (i + 1) rs out → Fuses targets i (r :: rs) (r :: out)
  | fuse : (seq, kind) ∈ fusionCandidates → tryMatch targets i seq rs →
      Fuses targets (i + seq.length) (rs.drop seq.length) out →
      Fuses targets i rs (makeFused (rs.take seq.length) kind :: out)

theorem fuseFrom_fuses (h : rs.length ≤ fuel) :
    Fuses targets i rs (fuseFrom targets fuel i rs) := by
  induction fuel generalizing i rs with
  | zero =>
    rw [List.length_eq_zero_iff.mp (Nat.le_zero.mp h)]
    exact .nil
  | succ fuel ih =>
    cases rs with
    | nil => exact .nil
    | cons r rs =>
      rw [fuseFrom]
      split
      next seq kind hfind =>
        have hmem := List.mem_of_find?_eq_some hfind
        have hpos : 0 < seq.length := by
          revert hmem
          simp only [fusionCandidates, List.mem_cons, Prod.mk.injEq, List.not_mem_nil, or_false]
          rintro (⟨rfl, -⟩ | ⟨rfl, -⟩ | ⟨rfl, -⟩ | ⟨rfl, -⟩ | ⟨rfl, -⟩ | ⟨rfl, -⟩) <;> decide
        refine .fuse hmem (by simpa using List.find?_some hfind) (ih ?_)
        rw [List.length_drop]
        simp only [List.length_cons] at h ⊢
        omega
      next => exact .keep (ih (Nat.le_of_succ_le_succ h))

theorem fuseRecords_fuses : Fuses targets 0 rs (fuseRecords targets rs) :=
  fuseFrom_fuses (Nat.le_refl _)

theorem tryMatch_split (h : tryMatch targets i seq rs) :
    ∃ run rest, rs = run ++ rest ∧ run.map (·.op) = seq.map .base ∧
      ∀ k, 0 < k → k < seq.length → i + k ∉ targets := by
  induction seq generalizing i rs with
  | nil => exact ⟨[], rs, rfl, rfl, fun k hk hk' => absurd hk' (Nat.not_lt_zero k)⟩
  | cons want seq ih =>
    cases rs with
    | nil => cases h
    | cons r rs =>
      cases seq with
      | nil =>
        have hop : r.op = .base want := by simpa [tryMatch] using h
        exact ⟨[r], rs, rfl, by simp [hop], fun k hk hk' => by
          rw [List.length_singleton] at hk'
          omega⟩
      | cons want' seq =>
        simp only [tryMatch, Bool.and_eq_true, decide_eq_true_eq] at h
        obtain ⟨⟨⟨hop, -⟩, ht⟩, h⟩ := h
        obtain ⟨run, rest, rfl, hrun, hts⟩ := ih h
        refine ⟨r :: run, rest, rfl, by simp [hop, hrun], fun k hk hk' => ?_⟩
        cases k with
        | zero => cases hk
        | succ k =>
          cases k with
          | zero => simpa using ht
          | succ k =>
            have := hts (k + 1) (Nat.succ_pos k) (by simpa using hk')
            rwa [Nat.add_assoc, Nat.add_comm 1 (k + 1)] at this

theorem Fuses.target (hf : Fuses targets i rs out) (hk : rs[k]? = some r)
    (ht : i + k ∈ targets) : ∃ r' ∈ out, r'.off = r.off := by
  induction hf generalizing k with
  | nil => cases hk
  | keep hf ih =>
    cases k with
    | zero =>
      cases hk
      exact ⟨_, List.mem_cons_self, rfl⟩
    | succ k =>
      obtain ⟨r', hr', he⟩ := ih (by simpa using hk) (by rwa [Nat.add_assoc, Nat.add_comm 1 k])
      exact ⟨r', List.mem_cons_of_mem _ hr', he⟩
  | @fuse seq kind i rs out hmem hmatch hf ih =>
    obtain ⟨run, rest, rfl, hrun, hts⟩ := tryMatch_split hmatch
    have hlen : run.length = seq.length := by simpa using congrArg List.length hrun
    cases Nat.lt_or_ge k seq.length with
    | inl hlt =>
      cases k with
      | zero =>
        refine ⟨_, List.mem_cons_self, ?_⟩
        simp [makeFused, List.getElem?_take, hlt, hk]
      | succ k => exact absurd ht (hts (k + 1) (Nat.succ_pos k) hlt)
    | inr hge =>
      obtain ⟨r', hr', he⟩ := ih (k := k - seq.length) (by
        rw [List.getElem?_drop, Nat.add_sub_cancel' hge]
        exact hk) (by rwa [Nat.add_assoc, Nat.add_sub_cancel' hge])
      exact ⟨r', List.mem_cons_of_mem _ hr', he⟩

end DecodedInstr

namespace Chunk

open DecodedInstr (Fuses tryMatch tryMatch_split makeFused Resolved resolveJumps_spec)

variable {c : Chunk} {is : List Instr}

theorem instr_mem (hi : c.instrs = .ok is) (hb : c.Boundary off)
    (hop : (c.code[off]?).bind Op.fromU8 = some op) : ⟨off, op, off + 1⟩ ∈ is := by
  cases hb with
  | inl hb =>
    rw [List.getElem?_eq_none (Nat.le_of_eq hb.symm)] at hop
    cases hop
  | inr hb =>
    obtain ⟨is', hi', ⟨off', op', at'⟩, him, rfl⟩ := hb
    rw [hi] at hi'
    cases hi'
    obtain ⟨hop', hat⟩ := decodeFrom_mem hi him
    simp only at hop' hat
    rw [hop] at hop'
    cases hop'
    rwa [hat] at him

def OpsAt (is : List Instr) : Nat → List Op → Prop
  | _, [] => True
  | off, op :: ops => ⟨off, op, off + 1⟩ ∈ is ∧ OpsAt is (off + 1 + op.operandWidth) ops

def totalWidth (ops : List Op) : Nat := (ops.map fun op => 1 + op.operandWidth).sum

theorem Aligned.sequence (hi : c.instrs = .ok is) (ha : c.Aligned off (run ++ rest))
    (hb : c.Boundary off) (hrun : run.map (·.op) = seq.map .base) :
    OpsAt is off seq ∧ c.Aligned (off + totalWidth seq) rest ∧
      c.Boundary (off + totalWidth seq) := by
  induction seq generalizing off run with
  | nil =>
    rw [List.map_eq_nil_iff.mp hrun] at ha
    exact ⟨trivial, ha, hb⟩
  | cons op seq ih =>
    cases run with
    | nil => cases hrun
    | cons r run =>
      rw [List.map_cons, List.map_cons, List.cons.injEq] at hrun
      cases ha with
      | cons hop hw hab ha =>
        obtain ⟨hr, hrun⟩ := hrun
        cases hr
        have hmem := instr_mem hi hb hop
        have hnext := boundary_next hi hmem
        obtain ⟨hops, ha', hb'⟩ := ih ha hnext hrun
        have hwidth : off + totalWidth (op :: seq) =
            off + 1 + op.operandWidth + totalWidth seq := by
          simp only [totalWidth, List.map_cons, List.sum_cons]
          omega
        rw [hwidth]
        exact ⟨⟨hmem, hops⟩, ha', hb'⟩

def Packed (c : Chunk) (off a : Nat) : DOp → Prop
  | .base _ => True
  | .fused kind =>
    a % 2 ^ 16 = c.readU16 (off + 1) ∧
      (kind ≠ .getPropAdd → a / 2 ^ 16 % 2 ^ 16 = c.readU16 (off + 4))

structure Stands (c : Chunk) (is : List Instr) (r : DecodedInstr) : Prop where
  ops : OpsAt is r.off r.op.components
  packed : c.Packed r.off r.a r.op

theorem readU16_lt (c : Chunk) (i : Nat) : c.readU16 i < 2 ^ 16 := by
  have h := (c.code[i]?.getD 0).toNat_lt
  have h' := (c.code[i + 1]?.getD 0).toNat_lt
  unfold readU16 byte
  omega

def isLoad : Op → Bool
  | .getLocal | .const | .getProp => true
  | _ => false

theorem Aligned.load (ha : c.Aligned off (r :: rs)) (hr : r.op = .base op) (ho : isLoad op) :
    r.off = off ∧ r.a = c.readU16 (off + 1) ∧ c.Aligned (off + 3) rs := by
  cases ha with
  | cons _ _ hab ha =>
    cases hr
    cases op <;> cases ho
    all_goals
      have hab := hab rfl
      cases hab
      exact ⟨rfl, rfl, ha⟩

theorem candidate_head (h : (seq, kind) ∈ fusionCandidates) :
    seq = kind.components ∧ ∃ op op' ops, seq = op :: op' :: ops ∧ isLoad op ∧
      (kind ≠ .getPropAdd → isLoad op') := by
  simp only [fusionCandidates, List.mem_cons, Prod.mk.injEq, List.not_mem_nil, or_false] at h
  obtain ⟨rfl, rfl⟩ | ⟨rfl, rfl⟩ | ⟨rfl, rfl⟩ | ⟨rfl, rfl⟩ | ⟨rfl, rfl⟩ | ⟨rfl, rfl⟩ := h
  all_goals exact ⟨rfl, _, _, _, rfl, rfl, by simp [isLoad]⟩

theorem packed_makeFused (ha : c.Aligned off (run ++ rest)) (hmem : (seq, kind) ∈ fusionCandidates)
    (hrun : run.map (·.op) = seq.map .base) :
    (makeFused run kind).off = off ∧ c.Packed off (makeFused run kind).a (.fused kind) := by
  obtain ⟨-, op, op', ops, rfl, hload, hload'⟩ := candidate_head hmem
  match run with
  | [] => cases hrun
  | [_] => simp at hrun
  | r :: r' :: run =>
    simp only [List.map_cons, List.cons.injEq] at hrun
    obtain ⟨hoff, hra, ha⟩ := ha.load hrun.1 hload
    have hlt := c.readU16_lt (off + 1)
    refine ⟨hoff, ?_, fun hk => ?_⟩
    · simp only [makeFused, List.getElem?_cons_zero, Option.map_some, Option.getD_some, hra]
      omega
    · obtain ⟨-, hra', -⟩ := ha.load hrun.2.1 (hload' hk)
      have hlt' := c.readU16_lt (off + 4)
      replace hra' : r'.a = c.readU16 (off + 4) := hra'
      simp only [makeFused, List.getElem?_cons_zero, List.getElem?_cons_succ, Option.map_some,
        Option.getD_some, hra, hra']
      omega

theorem Aligned.stands (hi : c.instrs = .ok is) (hf : Fuses targets i rs out)
    (ha : c.Aligned off rs) (hb : c.Boundary off) : ∀ r ∈ out, c.Stands is r := by
  induction hf generalizing off with
  | nil => exact fun r hr => nomatch hr
  | @keep i rs out r hf ih =>
    cases ha with
    | cons hop hw hab ha =>
      have hmem := instr_mem hi hb hop
      refine List.forall_mem_cons.mpr ⟨⟨⟨hmem, trivial⟩, trivial⟩, ih ha (boundary_next hi hmem)⟩
  | @fuse seq kind i rs out hmem hmatch hf ih =>
    obtain ⟨run, rest, rfl, hrun, -⟩ := tryMatch_split hmatch
    have hlen : run.length = seq.length := by simpa using congrArg List.length hrun
    obtain ⟨hops, ha', hb'⟩ := ha.sequence hi hb hrun
    obtain ⟨hoff, hpack⟩ := packed_makeFused ha hmem hrun
    rw [← hlen, List.drop_left] at ih
    rw [← hlen, List.take_left]
    refine List.forall_mem_cons.mpr ⟨⟨?_, ?_⟩, ih ha' hb'⟩
    · rw [hoff]
      have hseq := (candidate_head hmem).1
      subst hseq
      exact hops
    · rw [hoff]
      exact hpack

/-- The bytes a record stands for. -/
def bytesOf (c : Chunk) (r : DecodedInstr) : List UInt8 :=
  (c.code.drop r.off).take (totalWidth r.op.components)

theorem Aligned.partition (ha : c.Aligned off rs) : rs.flatMap c.bytesOf = c.code.drop off := by
  induction ha with
  | nil => simp
  | @cons off op a b rs hop hw hab ha ih =>
    rw [List.flatMap_cons, ih]
    have hwidth : totalWidth (DOp.base op).components = 1 + op.operandWidth := by
      simp [totalWidth, DOp.components]
    rw [bytesOf, hwidth, Nat.add_assoc off, ← List.drop_drop]
    exact List.take_append_drop _ _

theorem Aligned.le_off (ha : c.Aligned off rs) : ∀ r ∈ rs, off ≤ r.off := by
  induction ha with
  | nil => exact fun r hr => nomatch hr
  | cons _ _ _ _ ih =>
    exact List.forall_mem_cons.mpr ⟨Nat.le_refl _, fun r hr => by
      have := ih r hr
      omega⟩

theorem Aligned.nodup (ha : c.Aligned off rs) : (rs.map (·.off)).Nodup := by
  induction ha with
  | nil => exact .nil
  | cons _ _ _ ha ih =>
    refine List.nodup_cons.mpr ⟨fun h => ?_, ih⟩
    obtain ⟨r, hr, he⟩ := List.mem_map.mp h
    have := ha.le_off r hr
    simp only at he
    omega

theorem Aligned.off_inj {k k' : Nat} (ha : c.Aligned off rs)
    (hk : (rs.map (·.off))[k]? = some o)
    (hk' : (rs.map (·.off))[k']? = some o) : k = k' :=
  (List.getElem?_inj (List.getElem?_eq_some_iff.mp hk).1 ha.nodup).mp (hk.trans hk'.symm)

theorem Aligned.head (ha : c.Aligned off (r :: rs)) : r.off = off := by
  cases ha
  rfl

theorem Aligned.later_sequence (ha : c.Aligned off (run ++ rest))
    (hrun : run.map (·.op) = seq.map .base) (ho : o ∈ laterOffsets off seq) :
    ∃ k, 0 < k ∧ k < seq.length ∧ ((run ++ rest).map (·.off))[k]? = some o := by
  induction seq generalizing off run with
  | nil => cases ho
  | cons op seq ih =>
    match seq, run with
    | [], _ => cases ho
    | _ :: _, [] => cases hrun
    | _ :: _, [_] => simp at hrun
    | op' :: seq, r :: r' :: run =>
      have hrun := List.cons.inj hrun
      cases ha with
      | cons _ _ _ ha =>
        cases hrun.1
        rw [laterOffsets] at ho
        cases ho with
        | head =>
          exact ⟨1, Nat.one_pos, by simp, by simp [Aligned.head ha]⟩
        | tail _ ho =>
          obtain ⟨k, hk, hlt, he⟩ := ih ha hrun.2 ho
          exact ⟨k + 1, Nat.succ_pos k, Nat.succ_lt_succ hlt, by simpa using he⟩

theorem Aligned.later (hi : c.instrs = .ok is) (hf : Fuses targets i rs out)
    (ha : c.Aligned off rs) (hb : c.Boundary off) (hr : r ∈ out)
    (ho : o ∈ laterOffsets r.off r.op.components) :
    ∃ k, (rs.map (·.off))[k]? = some o ∧ i + k ∉ targets := by
  induction hf generalizing off with
  | nil => cases hr
  | @keep i rs out r hf ih =>
    cases ha with
    | cons hop hw hab ha =>
      cases hr with
      | head => cases ho
      | tail _ hr =>
        obtain ⟨k, hk, ht⟩ := ih ha (boundary_next hi (instr_mem hi hb hop)) hr
        exact ⟨k + 1, by simpa using hk, by rwa [Nat.add_assoc, Nat.add_comm 1 k] at ht⟩
  | @fuse seq kind i rs out hmem hmatch hf ih =>
    obtain ⟨run, rest, rfl, hrun, hts⟩ := tryMatch_split hmatch
    have hlen : run.length = seq.length := by simpa using congrArg List.length hrun
    obtain ⟨hops, ha', hb'⟩ := ha.sequence hi hb hrun
    obtain ⟨hoff, hpack⟩ := packed_makeFused ha hmem hrun
    rw [← hlen, List.drop_left] at ih
    rw [← hlen, List.take_left] at hr
    cases hr with
    | head =>
      have hseq := (candidate_head hmem).1
      subst hseq
      rw [hoff] at ho
      obtain ⟨k, hk, hlt, he⟩ := ha.later_sequence hrun ho
      exact ⟨k, he, hts k hk hlt⟩
    | tail _ hr =>
      obtain ⟨k, hk, ht⟩ := ih ha' hb' hr
      refine ⟨run.length + k, ?_, by rwa [← Nat.add_assoc]⟩
      rw [List.map_append, List.getElem?_append_right (by simp)]
      simpa using hk

/-- An instruction jumps to this offset. -/
def JumpsTo (c : Chunk) (is : List Instr) (o : Nat) : Prop :=
  ∃ i ∈ is, c.jumpFixup (i.off + 1) i.op = some (o : Int)

def InBlock (c : Chunk) (is : List Instr) (o : Nat) : Prop :=
  (∃ i ∈ is, nextOffset i = o ∧ isBlockTerminatorOp i.op = false) ∧ ¬ c.JumpsTo is o

theorem decodeWalk_fixup (hi : c.decodeFrom k ip = .ok is) (hw : c.decodeWalk k ip = some ps)
    (hm : i ∈ is) : ∃ r, (r, c.jumpFixup (i.off + 1) i.op) ∈ ps := by
  induction k generalizing ip is ps with
  | zero =>
    cases hi
    cases hm
  | succ k ih =>
    obtain ⟨-, rfl⟩ | ⟨op, rest, hop, -, -, hrest, rfl⟩ := decodeFrom_succ hi
    · cases hm
    · obtain ⟨hn, -⟩ | ⟨op', a, b, rest', hop', -, -, hrest', rfl⟩ := decodeWalk_succ hw
      · rw [hn] at hop
        cases hop
      · rw [hop] at hop'
        cases hop'
        cases hm with
        | head => exact ⟨_, List.mem_cons_self⟩
        | tail _ hm =>
          obtain ⟨r, hr⟩ := ih hrest hrest' hm
          exact ⟨r, List.mem_cons_of_mem _ hr⟩

theorem resolved_target (hr : List.Forall₂ (Resolved rs ts) ps out) (hp : p ∈ ps)
    (ht : p.2 = some target) : ∃ t ∈ ts, DecodedInstr.resolveTarget rs target = some t := by
  induction hr with
  | nil => cases hp
  | cons h _ ih =>
    cases hp with
    | head => exact h.2.2.2 target ht
    | tail _ hp => exact ih hp

theorem resolved_offs (hr : List.Forall₂ (Resolved rs ts) ps out) :
    (ps.map Prod.fst).map (·.off) = out.map (·.off) := by
  induction hr with
  | nil => rfl
  | cons h _ ih => simp only [List.map_cons, ih, h.2.1]

theorem decodeRecords_target (hi : c.instrs = .ok is) (hd : c.decodeRecords = some (rs, ts))
    (hj : c.JumpsTo is o) : ∃ t ∈ ts, (rs.map (·.off))[t]? = some o := by
  obtain ⟨i, him, hfix⟩ := hj
  obtain ⟨ps, hps, hd⟩ := Option.bind_eq_some_iff.mp hd
  have hres := resolveJumps_spec hd
  obtain ⟨r, hr⟩ := decodeWalk_fixup hi hps him
  obtain ⟨t, ht, htarget⟩ := resolved_target hres hr hfix
  refine ⟨t, ht, ?_⟩
  rw [← resolved_offs hres]
  simp only [DecodedInstr.resolveTarget] at htarget
  split at htarget
  · cases htarget
  · obtain ⟨hlt, hoff, -⟩ := List.findIdx?_eq_some_iff_getElem.mp htarget
    rw [List.getElem?_map, List.getElem?_eq_getElem hlt, Option.map_some]
    simpa using hoff

theorem decodeChunk_target (hi : c.instrs = .ok is) (hd : c.decodeChunk = some out)
    (hj : c.JumpsTo is o) : ∃ r ∈ out, r.off = o := by
  obtain ⟨⟨rs, ts⟩, hr, rfl⟩ := Option.map_eq_some_iff.mp hd
  obtain ⟨t, ht, hto⟩ := decodeRecords_target hi hr hj
  rw [List.getElem?_map] at hto
  obtain ⟨r, hr', rfl⟩ := Option.map_eq_some_iff.mp hto
  exact DecodedInstr.fuseRecords_fuses.target hr' (by rwa [Nat.zero_add])

theorem opsAt_later (h : OpsAt is off ops) (ho : o ∈ laterOffsets off ops) :
    ∃ i ∈ is, nextOffset i = o ∧ i.op ∈ ops.dropLast := by
  induction ops generalizing off with
  | nil => cases ho
  | cons op ops ih =>
    cases ops with
    | nil => cases ho
    | cons op' ops =>
      cases ho with
      | head => exact ⟨_, h.1, rfl, by simp⟩
      | tail _ ho =>
        obtain ⟨i, hi, hn, hop⟩ := ih h.2 ho
        exact ⟨i, hi, hn, by simp [hop]⟩

theorem components_dropLast (d : DOp) (h : op ∈ d.components.dropLast) :
    isBlockTerminatorOp op = false := by
  cases d with
  | base op' => cases h
  | fused kind =>
    cases kind <;> simp only [DOp.components, FusedKind.components, List.dropLast,
      List.mem_cons, List.not_mem_nil, or_false] at h
    all_goals
      first
      | subst h
        rfl
      | obtain rfl | rfl := h <;> rfl

theorem decodeChunk_later (hi : c.instrs = .ok is) (hz : c.Boundary 0)
    (hd : c.decodeChunk = some out) (hr : r ∈ out) (ho : o ∈ laterOffsets r.off r.op.components) :
    c.InBlock is o := by
  obtain ⟨⟨rs, ts⟩, hrec, rfl⟩ := Option.map_eq_some_iff.mp hd
  have ha := decodeRecords_aligned hrec
  have hs := ha.stands hi DecodedInstr.fuseRecords_fuses hz r hr
  obtain ⟨i, him, hn, hop⟩ := opsAt_later hs.ops ho
  refine ⟨⟨i, him, hn, components_dropLast _ hop⟩, fun hj => ?_⟩
  obtain ⟨k, hk, hkt⟩ := ha.later hi DecodedInstr.fuseRecords_fuses hz hr ho
  obtain ⟨t, ht, hto⟩ := decodeRecords_target hi hrec hj
  rw [ha.off_inj hk hto, Nat.zero_add] at hkt
  exact hkt ht

end Chunk
end AScript.Bytecode
