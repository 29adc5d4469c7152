import AScript.Bytecode.Slice
import AScript.Bytecode.Verify
import Mathlib.Data.Finset.Insert

/-! How a chunk uses the alias of a namespace (`compile/shake.rs`). -/

namespace AScript.Bytecode

open AScript.Lib AScript.Syntax

inductive NamespaceUse
  | static (props : Finset String)
  | dynamic (span : Span)

inductive SiteVerdict
  | static (name : String)
  | escape
  deriving DecidableEq

def simBailsOn : Op → Bool
  | .jump | .jumpIfFalse | .jumpIfTrue | .jumpIfNotNil | .loop | .jumpIfArgSupplied | .«return»
  | .yield | .matchNoArm | .immutableError | .dup | .swap | .rot3 => true
  | _ => false

namespace Chunk

def opAt (c : Chunk) (ip : Nat) : Option Op := (c.code[ip]?).bind Op.fromU8

def memberNameAt (c : Chunk) (opIp : Nat) : Option String :=
  if c.code.length ≤ opIp + 2 then none else c.nameAt (c.readU16 (opIp + 1))

def memberVerdict (c : Chunk) (opIp : Nat) : SiteVerdict :=
  match c.memberNameAt opIp with
  | some name => .static name
  | none => .escape

def consumer (c : Chunk) (ip above : Nat) : Op → SiteVerdict
  | .getProp | .getPropOpt => if above = 0 then c.memberVerdict ip else .escape
  | .callMethod | .callMethodSpread => c.memberVerdict ip
  | _ => .escape

/-- The loop of `classify_site`. Every turn goes on to a later offset, so the length of the code is
fuel enough. -/
def scanSite (c : Chunk) : Nat → Nat → Nat → SiteVerdict
  | 0, _, _ => .escape
  | fuel + 1, ip, above =>
    match c.opAt ip with
    | none => .escape
    | some op =>
      if simBailsOn op then .escape
      else
        let eff := c.opStackPopsPushes (ip + 1) op
        if above < eff.pops then
          if eff.pops = above + 1 then c.consumer ip above op else .escape
        else c.scanSite fuel (ip + 1 + op.operandWidth) (above - eff.pops + eff.pushes)

def classifySite (c : Chunk) (siteIp : Nat) : SiteVerdict :=
  match c.opAt siteIp with
  | none => .escape
  | some op => c.scanSite c.code.length (siteIp + 1 + op.operandWidth) 0

def spanAt (c : Chunk) (offset : Nat) : Span :=
  match (c.spans.takeWhile fun e => e.1.toNat ≤ offset).getLast? with
  | some e => e.2
  | none => ((c.spans.head?).map Prod.snd).getD ⟨0, 0⟩

def readsAlias (c : Chunk) (als : String) (ip : Nat) (op : Op) : Bool :=
  op = .getGlobal && ip + 2 < c.code.length && c.nameAt (c.readU16 (ip + 1)) = some als

/-- The loop of `classify_namespace_use_rec` over the code, with the names found so far. It fails
with where the alias escapes. -/
def walkUses (c : Chunk) (als : String) : Nat → Nat → Finset String → Except Span (Finset String)
  | 0, _, props => .ok props
  | fuel + 1, ip, props =>
    match c.opAt ip with
    | none => .ok props
    | some op =>
      if c.readsAlias als ip op then
        match c.classifySite ip with
        | .static name => c.walkUses als fuel (ip + 1 + op.operandWidth) (insert name props)
        | .escape => .error (c.spanAt ip)
      else c.walkUses als fuel (ip + 1 + op.operandWidth) props

end Chunk

mutual

def FnProto.classifyUses (als : String) : FnProto → Finset String → Except Span (Finset String)
  | .mk _ t ps, props => do
    let props ← Chunk.walkUses ⟨t, ps⟩ als t.code.length 0 props
    FnProto.classifyProtos als ps props

def FnProto.classifyProtos (als : String) : List FnProto → Finset String →
    Except Span (Finset String)
  | [], props => .ok props
  | p :: ps, props => do
    let props ← p.classifyUses als props
    FnProto.classifyProtos als ps props

end

namespace Chunk

def classifyNamespaceUseRec (c : Chunk) (als : String) (props : Finset String) :
    Except Span (Finset String) := do
  let props ← c.walkUses als c.code.length 0 props
  FnProto.classifyProtos als c.protos props

def classifyNamespaceUse (c : Chunk) (als : String) : NamespaceUse :=
  match c.classifyNamespaceUseRec als ∅ with
  | .ok props => .static props
  | .error span => .dynamic span

end Chunk

section Covered

variable {c : Chunk} {als : String}

theorem Chunk.walkUses_subset (h : c.walkUses als fuel ip props = .ok props') : props ⊆ props' := by
  induction fuel generalizing ip props with
  | zero =>
    cases h
    exact Finset.Subset.refl _
  | succ fuel ih =>
    rw [walkUses] at h
    split at h
    · cases h
      exact Finset.Subset.refl _
    · split at h
      · split at h
        · exact (Finset.subset_insert _ _).trans (ih h)
        · cases h
      · exact ih h

theorem Chunk.walkUses_mem (h : c.walkUses als fuel ip props = .ok props')
    (hd : c.decodeFrom fuel ip = .ok is) (hi : i ∈ is) (hals : c.readsAlias als i.off i.op = true) :
    ∃ name ∈ props', c.classifySite i.off = .static name := by
  induction fuel generalizing ip props is with
  | zero =>
    cases hd
    cases hi
  | succ fuel ih =>
    obtain ⟨-, rfl⟩ | ⟨op, rest, hop, -, -, hrest, rfl⟩ := decodeFrom_succ hd
    · cases hi
    · rw [walkUses, opAt, hop] at h
      simp only at h
      rcases List.mem_cons.mp hi with rfl | hi
      · rw [if_pos hals] at h
        split at h
        next name hname =>
          exact ⟨name, walkUses_subset h (Finset.mem_insert_self name props), hname⟩
        · cases h
      · split at h
        · split at h
          · exact ih h hrest hi
          · cases h
        · exact ih h hrest hi

theorem FnProto.classifyUses_eq (p : FnProto) (props : Finset String) :
    p.classifyUses als props = p.chunk.classifyNamespaceUseRec als props := by
  cases p
  rfl

mutual

theorem FnProto.classifyUses_subset {p : FnProto} (h : p.classifyUses als props = .ok props') :
    props ⊆ props' := by
  cases p with
  | mk s t ps =>
    rw [classifyUses] at h
    obtain ⟨mid, hwalk, hprotos⟩ := bind_ok.mp h
    exact (Chunk.walkUses_subset hwalk).trans (classifyProtos_subset hprotos)

theorem FnProto.classifyProtos_subset {ps : List FnProto}
    (h : classifyProtos als ps props = .ok props') : props ⊆ props' := by
  cases ps with
  | nil =>
    cases h
    exact Finset.Subset.refl _
  | cons p ps =>
    rw [classifyProtos] at h
    obtain ⟨mid, hp, hps⟩ := bind_ok.mp h
    exact (classifyUses_subset hp).trans (classifyProtos_subset hps)

end

theorem FnProto.classifyProtos_mem (h : FnProto.classifyProtos als ps props = .ok props')
    (hp : p ∈ ps) : ∃ q q', p.classifyUses als q = .ok q' ∧ q' ⊆ props' := by
  induction ps generalizing props with
  | nil => cases hp
  | cons p' ps ih =>
    rw [classifyProtos] at h
    obtain ⟨mid, hhead, htail⟩ := bind_ok.mp h
    rcases List.mem_cons.mp hp with rfl | hp
    · exact ⟨props, mid, hhead, classifyProtos_subset htail⟩
    · exact ih htail hp

theorem Body.In.classified (hin : Body.In c b) (h : c.classifyNamespaceUse als = .static names) :
    ∃ q q', b.chunk.classifyNamespaceUseRec als q = .ok q' ∧ q' ⊆ names := by
  induction hin with
  | root =>
    rw [Chunk.classifyNamespaceUse] at h
    split at h
    next props hprops =>
      cases h
      exact ⟨∅, _, hprops, Finset.Subset.refl _⟩
    · cases h
  | nested _ hp ih =>
    obtain ⟨q, q', hq, hsub⟩ := ih
    obtain ⟨mid, -, hprotos⟩ := bind_ok.mp hq
    obtain ⟨r, r', hr, hsub'⟩ := FnProto.classifyProtos_mem hprotos hp
    rw [FnProto.classifyUses_eq] at hr
    exact ⟨r, r', hr, hsub'.trans hsub⟩

theorem Body.In.static (hin : Body.In c b) (h : c.classifyNamespaceUse als = .static names)
    (hd : b.chunk.instrs = .ok is) (hi : i ∈ is) (hals : b.chunk.readsAlias als i.off i.op = true) :
    ∃ name ∈ names, b.chunk.classifySite i.off = .static name := by
  obtain ⟨q, q', hq, hsub⟩ := hin.classified h
  obtain ⟨mid, hwalk, hprotos⟩ := bind_ok.mp hq
  obtain ⟨name, hname, hsite⟩ := Chunk.walkUses_mem hwalk hd hi hals
  exact ⟨name, hsub (FnProto.classifyProtos_subset hprotos hname), hsite⟩

end Covered
end AScript.Bytecode
