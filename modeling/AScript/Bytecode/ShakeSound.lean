import AScript.Bytecode.Marks
import AScript.Bytecode.StackSafety

namespace AScript.Bytecode

open AScript.Lib

def Chunk.passed (c : Chunk) : Nat → Nat → Nat → List Nat
  | 0, _, _ => []
  | fuel + 1, ip, above =>
    match c.opAt ip with
    | none => []
    | some op =>
      let eff := c.opStackPopsPushes (ip + 1) op
      if simBailsOn op || above < eff.pops then []
      else ip :: c.passed fuel (ip + 1 + op.operandWidth) (above - eff.pops + eff.pushes)

/-- No class with static methods is built between a site and what takes the namespace. -/
def Body.Spared (b : Body) (site : Nat) : Prop :=
  ∀ ip ∈ b.chunk.passed b.chunk.code.length (site + 3) 0, ∀ op ∈ b.chunk.opAt ip,
    b.NoStatics (ip + 1) op

inductive Awaits (b : Body) (name : String) : Nat → Nat → Prop
  | use (hop : b.chunk.opAt ip = some op)
      (hpops : (b.chunk.opStackPopsPushes (ip + 1) op).pops = above + 1)
      (huse : b.chunk.consumer ip above op = .static name) : Awaits b name ip above
  | pass (hop : b.chunk.opAt ip = some op) (hbail : simBailsOn op = false)
      (hpops : (b.chunk.opStackPopsPushes (ip + 1) op).pops ≤ above)
      (hs : b.NoStatics (ip + 1) op)
      (next : Awaits b name (ip + 1 + op.operandWidth)
        (above - (b.chunk.opStackPopsPushes (ip + 1) op).pops +
          (b.chunk.opStackPopsPushes (ip + 1) op).pushes)) : Awaits b name ip above

variable {b : Body} {als name : String} {m : Marks}

theorem awaits_of_scan (h : b.chunk.scanSite fuel ip above = .static name)
    (hs : ∀ ip' ∈ b.chunk.passed fuel ip above, ∀ op ∈ b.chunk.opAt ip', b.NoStatics (ip' + 1) op) :
    Awaits b name ip above := by
  induction fuel generalizing ip above with
  | zero => cases h
  | succ fuel ih =>
    rw [Chunk.scanSite] at h
    rw [Chunk.passed] at hs
    split at h
    · cases h
    next op hop =>
      simp only [hop] at hs
      split at h
      · cases h
      next hbail =>
        simp only at h
        split at h
        next hlt =>
          split at h
          next hpops => exact .use hop hpops h
          · cases h
        next hle =>
          rw [if_neg (by simp [hbail, hle])] at hs
          rw [List.forall_mem_cons] at hs
          exact .pass hop (by simpa using hbail) (Nat.le_of_not_lt hle) (hs.1 op hop)
            (ih h hs.2)

theorem awaits_of_site (h : b.chunk.classifySite site = .static name)
    (hop : b.chunk.opAt site = some .getGlobal) (hs : b.Spared site) :
    Awaits b name (site + 3) 0 := by
  rw [Chunk.classifySite, hop] at h
  exact awaits_of_scan h hs

theorem consumer_static (h : b.chunk.consumer ip above op = .static name) :
    b.chunk.memberNameAt ip = some name ∧
      ((op = .getProp ∨ op = .getPropOpt) ∧ above = 0 ∨ op = .callMethod ∨
        op = .callMethodSpread) := by
  have hname (hv : b.chunk.memberVerdict ip = .static name) :
      b.chunk.memberNameAt ip = some name := by
    rw [Chunk.memberVerdict] at hv
    split at hv
    next hn =>
      cases hv
      exact hn
    · cases hv
  cases op <;> simp only [Chunk.consumer, reduceCtorEq] at h
  case getProp =>
    split at h
    next habove => exact ⟨hname h, .inl ⟨.inl rfl, habove⟩⟩
    · cases h
  case getPropOpt =>
    split at h
    next habove => exact ⟨hname h, .inl ⟨.inr rfl, habove⟩⟩
    · cases h
  case callMethod => exact ⟨hname h, .inr (.inl rfl)⟩
  case callMethodSpread => exact ⟨hname h, .inr (.inr rfl)⟩

theorem arm_consumer (h : b.chunk.consumer ip above op = .static name)
    (hpops : (b.chunk.opStackPopsPushes (ip + 1) op).pops = above + 1) (k : Nat) :
    b.arm (ip + 1) k op =
      .index .const (b.chunk.readU16 (ip + 1)) :: (pops (above + 1) ++ [.push]) := by
  obtain ⟨-, ⟨rfl | rfl, rfl⟩ | rfl | rfl⟩ := consumer_static h
  · rfl
  · rfl
  · rw [← hpops]
    rfl
  · rw [← hpops]
    rfl

theorem memberUse_of_consumer (h : b.chunk.consumer ip above op = .static name)
    (hpops : (b.chunk.opStackPopsPushes (ip + 1) op).pops = above + 1) (site : Nat) :
    b.chunk.MemberUse name ⟨ip, op, site, above⟩ := by
  obtain ⟨hname, ⟨rfl | rfl, rfl⟩ | rfl | rfl⟩ := consumer_static h
  · exact ⟨hname, rfl⟩
  · exact ⟨hname, rfl⟩
  · exact ⟨hname, Nat.succ.inj hpops.symm⟩
  · exact ⟨hname, Nat.succ.inj hpops.symm⟩

theorem Awaits.inv (h : Awaits b name ip i) (hop : b.chunk.opAt ip = some op) :
    simBailsOn op = false ∧ b.NoStatics (ip + 1) op ∧
      ((b.chunk.opStackPopsPushes (ip + 1) op).pops = i + 1 ∧
          b.chunk.consumer ip i op = .static name ∨
        (b.chunk.opStackPopsPushes (ip + 1) op).pops ≤ i ∧
          Awaits b name (ip + 1 + op.operandWidth)
            (i - (b.chunk.opStackPopsPushes (ip + 1) op).pops +
              (b.chunk.opStackPopsPushes (ip + 1) op).pushes)) := by
  cases h with
  | use hop' hpops huse =>
    cases hop.symm.trans hop'
    refine ⟨?_, fun hc => ?_, .inl ⟨hpops, huse⟩⟩
    · obtain ⟨-, ⟨rfl | rfl, -⟩ | rfl | rfl⟩ := consumer_static huse <;> rfl
    · subst hc
      cases huse
  | pass hop' hbail hpops hs next =>
    cases hop.symm.trans hop'
    exact ⟨hbail, hs, .inr ⟨hpops, next⟩⟩

theorem checked_at (hv : b.chunk.verifyChunk b.params.length = .ok ())
    (hb : b.chunk.Boundary ip) (hop : b.chunk.opAt ip = some op) :
    ∃ is, b.chunk.instrs = .ok is ∧ ⟨ip, op, ip + 1⟩ ∈ is ∧
      b.chunk.checkOperands is b.params.length ⟨ip, op, ip + 1⟩ = .ok () := by
  have hip : ip < b.chunk.code.length := by
    by_contra hle
    rw [Chunk.opAt, List.getElem?_eq_none (Nat.le_of_not_lt hle)] at hop
    cases hop
  obtain ⟨is, hi, ⟨off, op', operandAt⟩, him, rfl⟩ := hb.resolve_left (Nat.ne_of_lt hip)
  obtain ⟨is', hi', hops, -⟩ := Chunk.verifyChunk_ok hv (Nat.zero_lt_of_lt hip)
  cases hi.symm.trans hi'
  obtain ⟨hop', hat⟩ := Chunk.decodeFrom_mem hi him
  simp only at hop' hat hop
  subst hat
  cases hop.symm.trans hop'
  exact ⟨is, hi, him, hops _ him⟩

theorem transfer_straight (h : simBailsOn op = false) (ch : Choice) (operandAt next : Nat) :
    b.transfer operandAt ch op next = (next, .running) ∨
      (b.transfer operandAt ch op next).2 = .ended := by
  cases op <;> simp [simBailsOn] at h <;> simp [Body.transfer]

def Awaited (b : Body) (names : Finset String) (ip : Nat) (m : Marks) : Prop :=
  ∀ i site, m[i]? = some (some site) → ∃ name ∈ names, Awaits b name ip i

def Settled (b : Body) (names : Finset String) (ip : Nat) (m : Marks) : Status → Prop
  | .running => Awaited b names ip m
  | .suspended => ∀ site, some site ∉ m
  | .ended => True

section Awaited

variable {names : Finset String}

theorem awaited_of_none (h : ∀ site, some site ∉ m) : Awaited b names ip m :=
  fun _ site hget => absurd (List.mem_of_getElem? hget) (h site)

theorem Awaited.of_mem (h : Awaited b names ip m) (hm : some site ∈ m) :
    ∃ i, m[i]? = some (some site) ∧ ∃ name ∈ names, Awaits b name ip i := by
  obtain ⟨i, hi⟩ := List.mem_iff_getElem?.mp hm
  exact ⟨i, hi, h i site hi⟩

theorem remarks_consumer (h : b.chunk.consumer ip above op = .static name)
    (hpops : (b.chunk.opStackPopsPushes (ip + 1) op).pops = above + 1) (k : Nat) :
    remarks none m (b.arm (ip + 1) k op) = none :: m.drop (above + 1) := by
  rw [arm_consumer h hpops]
  exact remarks_pops none (above + 1) m [.push]

theorem Awaited.arm (h : Awaited b names ip m) (hop : b.chunk.opAt ip = some op)
    (hmethod : op ≠ .method)
    (hc : op = .«class» → b.chunk.readU16 (ip + 1) < b.chunk.classProtos.length) (k : Nat) :
    Awaited b names (ip + 1 + op.operandWidth) (remarks none m (b.arm (ip + 1) k op)) := by
  intro j site hj
  obtain ⟨i₀, hi₀, name₀, -, h₀⟩ := h.of_mem (mem_of_remarks (List.mem_of_getElem? hj))
  obtain ⟨-, hs, hpops₀⟩ := h₀.inv hop
  have hr := arm_reach (d := 0) (k := k) hmethod hs hc
  have hinv : ∀ i s, m[i]? = some (some s) → ∃ name ∈ names,
      (b.chunk.opStackPopsPushes (ip + 1) op).pops = i + 1 ∧
          remarks none m (b.arm (ip + 1) k op) = none :: m.drop (i + 1) ∨
        (b.chunk.opStackPopsPushes (ip + 1) op).pops ≤ i ∧
          Awaits b name (ip + 1 + op.operandWidth)
            (i - (b.chunk.opStackPopsPushes (ip + 1) op).pops +
              (b.chunk.opStackPopsPushes (ip + 1) op).pushes) := by
    intro i s hget
    obtain ⟨name, hname, ha⟩ := h i s hget
    exact ⟨name, hname, (ha.inv hop).2.2.imp_left fun ⟨hpops, huse⟩ =>
      ⟨hpops, remarks_consumer huse hpops k⟩⟩
  generalize b.chunk.opStackPopsPushes (ip + 1) op = eff at hpops₀ hr hinv
  rw [Nat.zero_add, Nat.zero_add] at hr
  have hlen : eff.pops ≤ m.length := by
    have hlt := (List.getElem?_eq_some_iff.mp hi₀).1
    omega
  obtain ⟨top, htop, heq, hmem⟩ := remarks_append hr (m.take eff.pops) (m.drop eff.pops)
    (List.length_take_of_le hlen)
  rw [List.take_append_drop] at heq
  rw [heq] at hj
  by_cases hlt : j < eff.pushes
  · -- what takes a value leaves no mark, and nothing else takes one
    rw [List.getElem?_append_left (htop ▸ hlt)] at hj
    obtain ⟨i, hi⟩ := List.mem_iff_getElem?.mp (hmem site (List.mem_of_getElem? hj))
    rw [List.getElem?_take] at hi
    split at hi
    next hip =>
      obtain ⟨name, -, ⟨hpops, hnone⟩ | ⟨hle, -⟩⟩ := hinv i site hi
      · rw [heq, hpops] at hnone
        obtain rfl : top = [none] := List.append_cancel_right hnone
        have hsite := List.mem_of_getElem? hj
        simp at hsite
      · omega
    · cases hi
  · rw [List.getElem?_append_right (htop ▸ Nat.le_of_not_lt hlt), htop, List.getElem?_drop] at hj
    obtain ⟨name, hname, ⟨hpops, -⟩ | ⟨-, next⟩⟩ := hinv _ site hj
    · omega
    · refine ⟨name, hname, ?_⟩
      rwa [show eff.pops + (j - eff.pushes) - eff.pops + eff.pushes = j by omega] at next

theorem Awaited.read (h : Awaited b names ip m) (hop : b.chunk.opAt ip = some .getGlobal)
    (hsite : ∃ name ∈ names, b.chunk.classifySite ip = .static name) (hs : b.Spared ip) (k : Nat) :
    Awaited b names (ip + 3) (remarks (some ip) m (b.arm (ip + 1) k .getGlobal)) := by
  intro j site hj
  cases j with
  | zero =>
    obtain ⟨name, hname, hsite⟩ := hsite
    exact ⟨name, hname, awaits_of_site hsite hop hs⟩
  | succ j =>
    obtain ⟨name, hname, ha⟩ := h j site hj
    obtain ⟨-, -, ⟨hpops, -⟩ | ⟨-, next⟩⟩ := ha.inv hop
    · cases hpops
    · exact ⟨name, hname, next⟩

theorem Awaited.uses (h : Awaited b names f.ip m) (hop : b.chunk.opAt f.ip = some op)
    (hc : op = .«class» → b.chunk.readU16 (f.ip + 1) < b.chunk.classProtos.length)
    (hu : (site, above) ∈ touches m m.length (b.performed ch f op)) :
    ∃ name ∈ names, b.chunk.MemberUse name ⟨f.ip, op, site, above⟩ := by
  obtain ⟨i₀, -, name₀, -, h₀⟩ := h.of_mem (mem_of_touches hu)
  have hr : reach _ (b.performed ch f op) ≠ none := performed_reach (h₀.inv hop).2.1 hc 0
  rw [Nat.zero_add] at hr
  obtain ⟨p, hp, hget, habove⟩ := lt_of_touches hr hu
  rw [Nat.add_sub_cancel] at habove
  subst habove
  obtain ⟨name, hname, ha⟩ := h above site hget
  obtain ⟨-, -, ⟨hpops, huse⟩ | ⟨hle, -⟩⟩ := ha.inv hop
  · exact ⟨name, hname, memberUse_of_consumer huse hpops site⟩
  · exact absurd hp (Nat.not_lt_of_le hle)

theorem Awaited.straight (h : Awaited b names ip m) (hop : b.chunk.opAt ip = some op)
    (hm : some site ∈ m) (ch : Choice) :
    b.transfer (ip + 1) ch op (ip + 1 + op.operandWidth) =
        (ip + 1 + op.operandWidth, .running) ∨
      (b.transfer (ip + 1) ch op (ip + 1 + op.operandWidth)).2 = .ended := by
  obtain ⟨i₀, -, name₀, -, h₀⟩ := h.of_mem hm
  exact transfer_straight (h₀.inv hop).1 ch _ _

theorem readsAlias_op {c : Chunk} (h : c.readsAlias als ip op = true) : op = .getGlobal := by
  rw [Chunk.readsAlias, Bool.and_assoc, Bool.and_eq_true] at h
  exact of_decide_eq_true h.1

theorem Awaited.next (h : Awaited b names ip m) (hop : b.chunk.opAt ip = some op)
    (hsite : b.chunk.readsAlias als ip op = true →
      (∃ name ∈ names, b.chunk.classifySite ip = .static name) ∧ b.Spared ip)
    (hc : op = .«class» → b.chunk.readU16 (ip + 1) < b.chunk.classProtos.length)
    (ht : b.transfer (ip + 1) ch op (ip + 1 + op.operandWidth) = (ip', status)) :
    Settled b names ip' (remarks (if b.chunk.readsAlias als ip op then some ip else none) m
      (b.arm (ip + 1) ch.spread op)) status := by
  by_cases hals : b.chunk.readsAlias als ip op = true
  · rw [if_pos hals]
    obtain ⟨hstatic, hs⟩ := hsite hals
    cases readsAlias_op hals
    cases ht
    exact h.read hop hstatic hs ch.spread
  · rw [if_neg hals]
    by_cases hmark : ∃ site, some site ∈ m
    · obtain ⟨site, hmark⟩ := hmark
      rcases h.straight hop hmark ch with hnext | hend
      · cases ht.symm.trans hnext
        refine h.arm hop ?_ hc ch.spread
        rintro rfl
        cases ht
      · rw [ht] at hend
        cases hend
        trivial
    · have hnone : ∀ site, some site ∉ remarks none m (b.arm (ip + 1) ch.spread op) :=
        fun site hm => hmark ⟨site, mem_of_remarks hm⟩
      cases status with
      | running => exact awaited_of_none hnone
      | suspended => exact hnone
      | ended => trivial

end Awaited

def Body.StaticSites (b : Body) (als : String) (names : Finset String) : Prop :=
  ∀ is, b.chunk.instrs = .ok is → ∀ i ∈ is, b.chunk.readsAlias als i.off i.op = true →
    (∃ name ∈ names, b.chunk.classifySite i.off = .static name) ∧ b.Spared i.off

/-- What is executed finds its operands above the base of the frame. -/
def Watched.StaysAbove (b : Body) (s : Watched) : Event × Bool → Prop
  | (.exec ch, _) => b.StaysAbove ch s.activation.frame
  | (.resume, _) => True

instance : ∀ s e, Decidable (Watched.StaysAbove b s e)
  | s, (.exec ch, _) => inferInstanceAs (Decidable (b.StaysAbove ch s.activation.frame))
  | _, (.resume, _) => inferInstanceAs (Decidable True)

structure Tracked (b : Body) (names : Finset String) (s : Watched) : Prop where
  boundary : s.activation.status ≠ .ended → b.chunk.Boundary s.activation.frame.ip
  settled : Settled b names s.activation.frame.ip s.marks s.activation.status

section Tracked

variable {names : Finset String} {s s' : Watched}

theorem tracked_of_ended (h : s.activation.status = .ended) : Tracked b names s where
  boundary hne := absurd h hne
  settled := by
    rw [h]
    trivial

theorem Tracked.exec (hv : b.chunk.verifyChunk b.params.length = .ok ())
    (hsites : b.StaticSites als names) (hb : b.chunk.Boundary s.activation.frame.ip)
    (ha : Awaited b names s.activation.frame.ip s.marks)
    (habove : b.StaysAbove ch s.activation.frame)
    (h : (b.watch als).step s (.exec ch, early) = some (o, s')) :
    (o.fault ≠ some .belowBase ∧ ∀ u ∈ o.uses, ∃ name ∈ names, b.chunk.MemberUse name u) ∧
      Tracked b names s' := by
  cases hop : b.chunk.opAt s.activation.frame.ip with
  | none =>
    obtain ⟨rfl, hend⟩ := watch_code h hop
    exact ⟨⟨nofun, nofun⟩, tracked_of_ended hend⟩
  | some op =>
    have he := watch_exec h hop
    obtain ⟨is, hi, him, hc⟩ := checked_at hv hb hop
    have hcls := Chunk.checkOperands_class hc
    refine ⟨⟨fun hfault => ?_, fun u hu => ?_⟩, ?_⟩
    · obtain ⟨x, hx, hx', -⟩ | ⟨f', -, hnone, -⟩ := he.activation
      · cases hx'.symm.trans hfault
        exact habove op hop (perform_belowBase hx)
      · cases hnone.symm.trans hfault
    · rw [he.uses] at hu
      obtain ⟨⟨site, above⟩, ht, rfl⟩ := List.mem_map.mp hu
      exact ha.uses hop hcls ht
    · obtain ⟨x, -, -, hend⟩ | ⟨f', -, -, ⟨-, hend⟩ | ⟨hraise, hact⟩⟩ := he.activation
      · exact tracked_of_ended hend
      · exact tracked_of_ended hend
      · have hnext := ha.next hop (hsites is hi _ him) hcls (Prod.eta (b.transfer _ ch op _)).symm
        have hmarks := he.marks
        rw [Body.performed, hraise] at hmarks
        constructor
        · rw [hact]
          exact fun _ => transfer_boundary hi him hc ch
        · rw [hact, hmarks]
          exact hnext

theorem Tracked.step (hv : b.chunk.verifyChunk b.params.length = .ok ())
    (hsites : b.StaticSites als names) (hs : Tracked b names s) (habove : s.StaysAbove b e)
    (h : (b.watch als).step s e = some (o, s')) :
    (o.fault ≠ some .belowBase ∧ ∀ u ∈ o.uses, ∃ name ∈ names, b.chunk.MemberUse name u) ∧
      Tracked b names s' := by
  obtain ⟨e, early⟩ := e
  obtain ⟨ch, rfl, hrun⟩ | ⟨rfl, hsus, rfl, rfl⟩ := watch_status h
  · have hb := hs.boundary (by rw [hrun]; nofun)
    have ha := hs.settled
    rw [hrun] at ha
    exact Tracked.exec hv hsites hb ha habove h
  · have hnone := hs.settled
    rw [hsus] at hnone
    refine ⟨⟨nofun, nofun⟩, fun _ => hs.boundary (by rw [hsus]; nofun),
      awaited_of_none fun site hm => ?_⟩
    exact hnone site ((List.mem_cons.mp hm).resolve_left nofun)

end Tracked
end AScript.Bytecode
