import AScript.Bytecode.IndexSafety
import AScript.Bytecode.Shake

namespace AScript.Bytecode

open AScript.Lib

/-- The operand area from the top down, and of each value at which instruction it was read. -/
abbrev Marks := List (Option Nat)

namespace Act

def remark (new : Option Nat) (m : Marks) : Act → Marks
  | .pop => m.tail
  | .push => new :: m
  | _ => m

def touch (m : Marks) : Act → Option (Nat × Nat)
  | .pop => (m.head?.join).map (·, 0)
  | .peek back => (m[back]?.join).map (·, back)
  | _ => none

end Act

def remarks (new : Option Nat) (m : Marks) (as : List Act) : Marks := as.foldl (Act.remark new) m

def touches : Marks → Nat → List Act → List (Nat × Nat)
  | _, _, [] => []
  | m, size, a :: as =>
    ((a.touch m).map fun t => (t.1, t.2 + size - m.length)).toList ++
      touches (a.remark none m) size as

/-- A use of a marked value: the instruction, where the value was read, and how many values were
above it. -/
structure Use where
  ip : Nat
  op : Op
  site : Nat
  above : Nat
  deriving DecidableEq

/-- How an activation ends: with a panic, with an early return of a propagated error, or with a
return. -/
inductive Exit
  | panic
  | early
  | done
  deriving DecidableEq

structure Seen where
  fault : Option Fault
  exit : Option Exit
  uses : List Use

structure Watched where
  activation : Activation
  marks : Marks

namespace Body

variable (b : Body)

/-- `early` tells a `?` that returns from one that panics. -/
def exit (ch : Choice) (early : Bool) (f : Frame) (op : Op) : Option Exit :=
  if (f.raises ch op).isSome then some (if op = .propagate && early then .early else .panic)
  else if op = .«return» then some .done
  else if (b.transfer (f.ip + 1) ch op (f.ip + 1 + op.operandWidth)).2 = .ended then some .panic
  else none

/-- The machine of an activation, with what it shows of the namespace that is read as `als`. -/
def watch (als : String) : Machine Watched (Event × Bool) Seen where
  step s e :=
    match b.machine.step s.activation e.1 with
    | none => none
    | some (fault, a) =>
      match e.1, b.chunk.opAt s.activation.frame.ip with
      | .resume, _ => some (⟨fault, none, []⟩, ⟨a, none :: s.marks⟩)
      | .exec _, none => some (⟨fault, none, []⟩, ⟨a, s.marks⟩)
      | .exec ch, some op =>
        let f := s.activation.frame
        let as := b.performed ch f op
        let new := if b.chunk.readsAlias als f.ip op then some f.ip else none
        some (⟨fault, b.exit ch e.2 f op,
          (touches s.marks s.marks.length as).map fun t => ⟨f.ip, op, t.1, t.2⟩⟩,
          ⟨a, remarks new s.marks as⟩)

end Body

/-- The value is the receiver of a read or call of a member with this name. -/
def Chunk.MemberUse (c : Chunk) (name : String) (u : Use) : Prop :=
  c.memberNameAt u.ip = some name ∧
    match u.op with
    | .getProp | .getPropOpt => u.above = 0
    | .callMethod => u.above = c.readU8 (u.ip + 3)
    | .callMethodSpread => u.above = 1
    | _ => False

variable {b : Body} {m : Marks}

theorem mem_of_remarks (h : some s ∈ remarks none m as) : some s ∈ m := by
  induction as generalizing m with
  | nil => exact h
  | cons a as ih =>
    have hm := ih h
    cases a with
    | pop => exact List.mem_of_mem_tail hm
    | push => exact (List.mem_cons.mp hm).resolve_left nofun
    | _ => exact hm

theorem remarks_append (hr : reach k as = some k') (top base : Marks) (hk : top.length = k) :
    ∃ top' : Marks, top'.length = k' ∧ remarks none (top ++ base) as = top' ++ base ∧
      ∀ s, some s ∈ top' → some s ∈ top := by
  induction as generalizing k top with
  | nil =>
    cases hr
    exact ⟨top, hk, rfl, fun _ h => h⟩
  | cons a as ih =>
    rw [reach] at hr
    obtain ⟨k₁, ha, hr⟩ := Option.bind_eq_some_iff.mp hr
    cases a with
    | pop =>
      cases top with
      | nil =>
        subst hk
        cases ha
      | cons v top =>
        subst hk
        obtain rfl : top.length = k₁ := Option.some.inj ha
        obtain ⟨top', hlen, heq, hmem⟩ := ih hr top rfl
        exact ⟨top', hlen, heq, fun s hs => List.mem_cons_of_mem _ (hmem s hs)⟩
    | push =>
      obtain rfl : k + 1 = k₁ := Option.some.inj ha
      obtain ⟨top', hlen, heq, hmem⟩ := ih hr (none :: top) (by rw [List.length_cons, hk])
      exact ⟨top', hlen, heq,
        fun s hs => (List.mem_cons.mp (hmem s hs)).resolve_left fun h => by cases h⟩
    | peek back =>
      rw [Act.depth] at ha
      split at ha
      · obtain rfl := Option.some.inj ha
        exact ih hr top hk
      · cases ha
    | _ =>
      obtain rfl := Option.some.inj ha
      exact ih hr top hk

theorem getElem?_of_touch {a : Act} (h : a.touch m = some (site, i)) :
    m[i]? = some (some site) ∧ (a = .pop ∧ i = 0 ∨ a = .peek i) := by
  cases a with
  | pop =>
    obtain ⟨s, hs, heq⟩ := Option.map_eq_some_iff.mp h
    cases heq
    rw [← List.head?_eq_getElem?]
    exact ⟨Option.join_eq_some_iff.mp hs, .inl ⟨rfl, rfl⟩⟩
  | peek back =>
    obtain ⟨s, hs, heq⟩ := Option.map_eq_some_iff.mp h
    cases heq
    exact ⟨Option.join_eq_some_iff.mp hs, .inr rfl⟩
  | _ => cases h

theorem mem_touches_cons {a : Act} : (site, i) ∈ touches m size (a :: as) ↔
    (∃ p, a.touch m = some (site, p) ∧ i = p + size - m.length) ∨
      (site, i) ∈ touches (a.remark none m) size as := by
  rw [touches, List.mem_append, Option.mem_toList, Option.map_eq_some_iff]
  refine or_congr_left ⟨?_, ?_⟩
  · rintro ⟨⟨s, p⟩, ht, heq⟩
    cases heq
    exact ⟨p, ht, rfl⟩
  · rintro ⟨p, ht, rfl⟩
    exact ⟨(site, p), ht, rfl⟩

theorem mem_of_touches (h : (site, i) ∈ touches m size as) : some site ∈ m := by
  induction as generalizing m with
  | nil => cases h
  | cons a as ih =>
    rcases mem_touches_cons.mp h with ⟨p, ht, -⟩ | h
    · exact List.mem_of_getElem? (getElem?_of_touch ht).1
    · have hm := ih h
      cases a with
      | pop => exact List.mem_of_mem_tail hm
      | push => exact (List.mem_cons.mp hm).resolve_left nofun
      | _ => exact hm

theorem lt_of_touches (hr : reach k as ≠ none) (h : (site, i) ∈ touches m size as) :
    ∃ p < k, m[p]? = some (some site) ∧ i = p + size - m.length := by
  induction as generalizing k m with
  | nil => cases h
  | cons a as ih =>
    obtain ⟨d, hd⟩ := Option.ne_none_iff_exists'.mp hr
    rw [reach] at hd
    obtain ⟨k₁, ha, hd⟩ := Option.bind_eq_some_iff.mp hd
    have hr : reach k₁ as ≠ none := by
      rw [hd]
      exact Option.some_ne_none d
    rcases mem_touches_cons.mp h with ⟨p, ht, hi⟩ | h
    · obtain ⟨hget, ⟨rfl, rfl⟩ | rfl⟩ := getElem?_of_touch ht
      · refine ⟨0, Nat.pos_of_ne_zero fun hk => ?_, hget, hi⟩
        rw [Act.depth, if_pos hk] at ha
        cases ha
      · rw [Act.depth] at ha
        split at ha
        next hlt => exact ⟨p, hlt, hget, hi⟩
        · cases ha
    · obtain ⟨p, hp, hget, hi⟩ := ih hr h
      cases a with
      | pop =>
        cases m with
        | nil => cases hget
        | cons v m =>
          rw [Act.depth] at ha
          split at ha
          · cases ha
          · obtain rfl := Option.some.inj ha
            refine ⟨p + 1, by omega, hget, ?_⟩
            rw [hi, Act.remark, List.tail_cons, List.length_cons]
            omega
      | push =>
        obtain rfl : k + 1 = k₁ := Option.some.inj ha
        cases p with
        | zero => cases hget
        | succ p =>
          refine ⟨p, by omega, hget, ?_⟩
          rw [hi, Act.remark, List.length_cons]
          omega
      | peek back =>
        rw [Act.depth] at ha
        split at ha
        · obtain rfl := Option.some.inj ha
          exact ⟨p, hp, hget, hi⟩
        · cases ha
      | _ =>
        obtain rfl := Option.some.inj ha
        exact ⟨p, hp, hget, hi⟩

theorem remarks_pops (new : Option Nat) (n : Nat) (m : Marks) (as : List Act) :
    remarks new m (pops n ++ as) = remarks new (m.drop n) as := by
  induction n generalizing m with
  | zero => rfl
  | succ n ih =>
    cases m with
    | nil =>
      have hrest := ih []
      rw [List.drop_nil] at hrest ⊢
      exact hrest
    | cons v m => exact ih m

theorem touches_pops (hm : m[i]? = some (some site)) (hi : i < n) (hlen : m.length ≤ size) :
    (site, i + size - m.length) ∈ touches m size (pops n ++ as) := by
  induction n generalizing m i with
  | zero => cases hi
  | succ n ih =>
    cases m with
    | nil => cases hm
    | cons v m =>
      rw [pops, List.replicate_succ, List.cons_append]
      cases i with
      | zero =>
        obtain rfl : v = some site := Option.some.inj hm
        exact mem_touches_cons.mpr (.inl ⟨0, rfl, rfl⟩)
      | succ i =>
        rw [List.length_cons] at hlen
        refine mem_touches_cons.mpr (.inr ?_)
        have hrest := ih (m := m) hm (Nat.lt_of_succ_lt_succ hi) (by omega)
        rwa [List.length_cons, show i + 1 + size - (m.length + 1) = i + size - m.length by omega]

structure Executed (b : Body) (als : String) (ch : Choice) (early : Bool) (f : Frame) (op : Op)
    (m : Marks) (o : Seen) (s' : Watched) : Prop where
  exit : o.exit = b.exit ch early f op
  uses : o.uses = (touches m m.length (b.performed ch f op)).map fun t => ⟨f.ip, op, t.1, t.2⟩
  marks : s'.marks =
    remarks (if b.chunk.readsAlias als f.ip op then some f.ip else none) m (b.performed ch f op)
  activation :
    (∃ x, f.perform b (b.performed ch f op) = .error x ∧ o.fault = some x ∧
      s'.activation.status = .ended) ∨
    ∃ f', f.perform b (b.performed ch f op) = .ok f' ∧ o.fault = none ∧
      ((f.raises ch op).isSome = true ∧ s'.activation.status = .ended ∨
        f.raises ch op = none ∧ s'.activation = ⟨{ f' with
          ip := (b.transfer (f.ip + 1) ch op (f.ip + 1 + op.operandWidth)).1 },
          (b.transfer (f.ip + 1) ch op (f.ip + 1 + op.operandWidth)).2⟩)

theorem watch_exec {s s' : Watched}
    (h : (b.watch als).step s (.exec ch, early) = some (o, s'))
    (hop : b.chunk.opAt s.activation.frame.ip = some op) :
    Executed b als ch early s.activation.frame op s.marks o s' := by
  obtain ⟨⟨f, status⟩, m⟩ := s
  simp only [Body.watch, Body.machine] at h hop
  rw [exec_eq hop, hop] at h
  split at h
  · cases h
  next fault a hstep =>
    cases h
    split at hstep
    · cases hperform : f.perform b (b.performed ch f op) with
      | error x =>
        rw [hperform] at hstep
        cases hstep
        exact ⟨rfl, rfl, rfl, .inl ⟨x, hperform, rfl, rfl⟩⟩
      | ok f' =>
        rw [hperform] at hstep
        cases hr : f.raises ch op with
        | some n =>
          rw [hr] at hstep
          cases hstep
          exact ⟨rfl, rfl, rfl, .inr ⟨f', hperform, rfl, .inl ⟨by rw [hr]; rfl, rfl⟩⟩⟩
        | none =>
          rw [hr] at hstep
          cases hstep
          exact ⟨rfl, rfl, rfl, .inr ⟨f', hperform, rfl, .inr ⟨hr, rfl⟩⟩⟩
    · cases hstep

theorem watch_status {s s' : Watched} (h : (b.watch als).step s (e, early) = some (o, s')) :
    (∃ ch, e = .exec ch ∧ s.activation.status = .running) ∨
      e = .resume ∧ s.activation.status = .suspended ∧ s' =
        ⟨⟨{ s.activation.frame with depth := s.activation.frame.depth + 1 }, .running⟩,
          none :: s.marks⟩ ∧ o = ⟨none, none, []⟩ := by
  cases e with
  | exec ch =>
    refine .inl ⟨ch, rfl, ?_⟩
    by_contra hrun
    simp [Body.watch, Body.machine, hrun] at h
  | resume =>
    simp only [Body.watch, Body.machine] at h
    by_cases hsus : s.activation.status = .suspended
    · rw [if_pos hsus] at h
      cases h
      exact .inr ⟨rfl, hsus, rfl, rfl⟩
    · rw [if_neg hsus] at h
      cases h

theorem watch_code {s s' : Watched} (h : (b.watch als).step s (.exec ch, early) = some (o, s'))
    (hop : b.chunk.opAt s.activation.frame.ip = none) :
    o = ⟨some .code, none, []⟩ ∧ s'.activation.status = .ended := by
  obtain ⟨⟨f, status⟩, m⟩ := s
  simp only [Body.watch, Body.machine] at h hop
  have hexec : b.exec ch f = .error .code := by
    rw [Chunk.opAt] at hop
    simp only [Body.exec, hop]
  rw [hexec, hop] at h
  split at h
  · cases h
  next fault a hstep =>
    cases h
    split at hstep
    · cases hstep
      exact ⟨rfl, rfl⟩
    · cases hstep

end AScript.Bytecode
