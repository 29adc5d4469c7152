import AScript.Bytecode.ShakeSound

namespace AScript.Bytecode

open AScript.Lib

def Seen.Cut (o : Seen) : Prop :=
  o.exit = some .panic ∨ o.exit = some .early ∨ ∃ x ∈ o.fault, x.isIndex = true

structure Pending (b : Body) (name : String) (site : Nat) (below : Marks) (s : Watched)
    (above : Marks) : Prop where
  running : s.activation.status = .running
  boundary : b.chunk.Boundary s.activation.frame.ip
  depth : s.marks.length = s.activation.frame.depth
  marks : s.marks = above ++ some site :: below
  fresh : some site ∉ above
  later : site < s.activation.frame.ip
  awaits : Awaits b name s.activation.frame.ip above.length

variable {b : Body} {als name : String} {site : Nat} {below above : Marks} {s s' : Watched}

section Instruction

variable {f : Frame} {op : Op} {o : Seen}

structure Body.Fetched (b : Body) (ip : Nat) (op : Op) : Prop where
  fetch : b.chunk.opAt ip = some op
  «class» : op = .«class» → b.chunk.readU16 (ip + 1) < b.chunk.classProtos.length
  next : ∀ ch, b.chunk.Boundary (b.transfer (ip + 1) ch op (ip + 1 + op.operandWidth)).1

theorem Pending.fetched (h : Pending b name site below s above)
    (hv : b.chunk.verifyChunk b.params.length = .ok ()) :
    ∃ op, b.Fetched s.activation.frame.ip op := by
  obtain ⟨op, hop⟩ : ∃ op, b.chunk.opAt s.activation.frame.ip = some op := by
    cases h.awaits with
    | use hop => exact ⟨_, hop⟩
    | pass hop => exact ⟨_, hop⟩
  obtain ⟨is, hi, him, hc⟩ := checked_at hv h.boundary hop
  exact ⟨op, hop, Chunk.checkOperands_class hc, transfer_boundary hi him hc⟩

theorem Pending.uses (h : Pending b name site below s above)
    (hf : b.Fetched s.activation.frame.ip op) (ht : (site, i) ∈
      touches s.marks s.marks.length (b.performed ch s.activation.frame op)) :
    (b.chunk.opStackPopsPushes (s.activation.frame.ip + 1) op).pops = above.length + 1 ∧
      b.chunk.MemberUse name ⟨s.activation.frame.ip, op, site, i⟩ := by
  obtain ⟨-, hs, hpops⟩ := h.awaits.inv hf.fetch
  have hr : reach _ (b.performed ch s.activation.frame op) ≠ none := performed_reach hs hf.class 0
  rw [Nat.zero_add] at hr
  obtain ⟨p, hp, hget, hi⟩ := lt_of_touches hr ht
  rw [Nat.add_sub_cancel] at hi
  subst hi
  have hle : above.length ≤ i := by
    by_contra hlt
    rw [h.marks, List.getElem?_append_left (Nat.lt_of_not_le hlt)] at hget
    exact h.fresh (List.mem_of_getElem? hget)
  obtain ⟨hpops, huse⟩ | ⟨hle', -⟩ := hpops
  · obtain rfl : i = above.length := by omega
    exact ⟨hpops, memberUse_of_consumer huse hpops site⟩
  · omega

structure GoesOn (b : Body) (ch : Choice) (op : Op) (o : Seen) (s s' : Watched) : Prop where
  fault : o.fault = none
  exit : o.exit = none
  method : op ≠ .method
  acts : b.performed ch s.activation.frame op = b.arm (s.activation.frame.ip + 1) ch.spread op
  running : s'.activation.status = .running
  ip : s'.activation.frame.ip = s.activation.frame.ip + 1 + op.operandWidth
  boundary : b.chunk.Boundary s'.activation.frame.ip
  depth : s'.marks.length = s'.activation.frame.depth

theorem Pending.takes (h : Pending b name site below s above)
    (he : Executed b als ch early s.activation.frame op s.marks o s')
    (hg : GoesOn b ch op o s s')
    (hpops : (b.chunk.opStackPopsPushes (s.activation.frame.ip + 1) op).pops = above.length + 1)
    (huse : b.chunk.consumer s.activation.frame.ip above.length op = .static name) :
    s'.marks = none :: below ∧ ∃ u ∈ o.uses, u.site = site := by
  have hals : b.chunk.readsAlias als s.activation.frame.ip op ≠ true := by
    intro hals
    cases readsAlias_op hals
    cases huse
  have hmarks := he.marks
  have huses := he.uses
  rw [hg.acts] at hmarks huses
  constructor
  · rw [hmarks, if_neg hals, remarks_consumer huse hpops, h.marks, List.drop_append]
    simp
  · rw [arm_consumer huse hpops] at huses
    have hget : s.marks[above.length]? = some (some site) := by
      rw [h.marks]
      simp
    have ht : (site, _) ∈ touches s.marks s.marks.length (pops (above.length + 1) ++ [.push]) :=
      touches_pops hget (Nat.lt_succ_self _) (Nat.le_refl _)
    rw [huses]
    exact ⟨_, List.mem_map_of_mem ht, rfl⟩

end Instruction

end AScript.Bytecode
