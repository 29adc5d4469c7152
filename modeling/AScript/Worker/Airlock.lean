import AScript.Worker.Sendable

namespace AScript.Worker

open AScript.Lib AScript.Runtime

variable {D A : Type} {x : Ext D} {h : Heap D A} {root : Val D A}

/-- The heap of the copy. -/
def copyHeap (cells : List (Cell D Nat)) : Heap D Nat := fun i => (cells[i]?).getD (.array [])

theorem Same.of_scalar {R R' : A → B → Prop} {v : Val D A} {w : Val D B} (hs : Same R v w)
    (hv : IsScalar v) : Same R' v w := by
  cases hs <;> first | (cases hv; done) | constructor

theorem same_scalar {R : A → B → Prop} {v : Val D A} (hv : IsScalar v) : Same R v (scalar v) := by
  cases v <;> first | (cases hv; done) | constructor

theorem Grows.reaches (hg : Grows h root [root] .empty new e') (hv : Occurs h root v)
    (hc : container? v = some a) : a ∈ e'.ids := by
  have hids : e'.ids = new := hg.ids
  induction hv generalizing a with
  | root => exact hg.held _ List.mem_cons_self _ hc
  | inside _ hb hm ih => exact hg.closed _ (hids ▸ ih hb) _ hm _ hc

section Contents

variable {far : String → String → Option (Val D Nat)}

theorem sameEntries_receive {R : A → Nat → Prop} {f : A → Nat} {m : IndexMap K (Val D A)} :
    SameEntries R m (m.mapValues (receive far f)) ↔ ∀ v ∈ m.values, Same R v (receive far f v) := by
  simp only [SameEntries, IndexMap.mapValues, IndexMap.values, List.forall₂_map_right_iff,
    List.forall₂_same, true_and, List.forall_mem_map]

theorem sameCell_receive {R : A → Nat → Prop} {f : A → Nat} {c : Cell D A} :
    SameCell R c (receiveCell far f c) ↔ ∀ v ∈ c.values, Same R v (receive far f v) := by
  cases c with
  | array vs =>
    constructor
    · rintro (hs | _)
      rw [List.forall₂_map_right_iff, List.forall₂_same] at hs
      exact hs
    · intro hs
      refine .array ?_
      rw [List.forall₂_map_right_iff, List.forall₂_same]
      exact hs
  | object m =>
    constructor
    · rintro (_ | hs)
      exact sameEntries_receive.mp hs
    · exact fun hs => .object (sameEntries_receive.mpr hs)
  | map m =>
    constructor
    · rintro (_ | _ | hs)
      exact sameEntries_receive.mp hs
    · exact fun hs => .map (sameEntries_receive.mpr hs)
  | set m => exact ⟨fun _ => by simp [Cell.values], fun _ => .set⟩
  | bytes raw => exact ⟨fun _ => by simp [Cell.values], fun _ => .bytes⟩
  | «instance» cls m =>
    constructor
    · intro hs
      cases hs with | «instance» _ hs => exact sameEntries_receive.mp hs
    · exact fun hs => .instance rfl (sameEntries_receive.mpr hs)

theorem Same.container {R : A → Nat → Prop} {f : A → Nat} (hs : Same R v (receive far f v))
    (hc : container? v = some a) : R a (f a) := by
  match v, hc, hs with
  | .other (.cell b), hc, hs =>
    cases hc
    cases hs with | cell hr => exact hr
  | .other (.variant _ _ _ (some b) _ _), hc, hs =>
    cases hc
    cases hs with | payload _ hr => exact hr
  | .other (.variant _ _ _ none _ _), hc, _ | .other (.code _), hc, _ | .other (.regex _), hc, _
  | .other (.shared _), hc, _ | .nil, hc, _ | .bool _, hc, _ | .int _, hc, _ | .float _, hc, _
  | .decimal _, hc, _ | .str _, hc, _ => cases hc

end Contents

section Copy

variable [DecidableEq A] (far : String → String → Option (Val D Nat)) (all : List A)

def Numbered (a : A) (i : Nat) : Prop := a ∈ all ∧ i = all.idxOf a

def copies (h : Heap D A) : List (Cell D Nat) :=
  all.map fun a => receiveCell far (fun a => all.idxOf a) (h a)

variable {far all}

theorem copyHeap_idxOf (ha : a ∈ all) : copyHeap (copies far all h) (all.idxOf a) =
    receiveCell far (fun a => all.idxOf a) (h a) := by
  rw [copyHeap, copies, List.getElem?_map, List.getElem?_idxOf ha]
  rfl

theorem same_receive (hp : ProperVal x h v) (hk : Kept far v) (hcode : unsendableKind v = none)
    (hc : ∀ a, container? v = some a → a ∈ all) :
    Same (Numbered all) v (receive far (fun a => all.idxOf a) v) := by
  match v, hp, hk, hcode, hc with
  | .other (.cell a), _, _, _, hc => exact .cell ⟨hc a rfl, rfl⟩
  | .other (.code c), _, _, hcode, _ => cases c <;> cases hcode
  | .other (.regex _), _, _, _, _ => exact .regex
  | .other (.shared _), _, _, _, _ => exact .shared
  | .other (.variant enumName name value none ctor hasDef), hp, hk, _, _ =>
    rw [Kept] at hk
    rw [receive]
    cases hfar : far enumName name with
    | none =>
      rw [hfar] at hk
      obtain ⟨rfl, rfl⟩ := hk
      exact .unit (same_scalar hp)
    | some w =>
      rw [hfar] at hk
      cases hk with | unit hs => exact .unit (hs.of_scalar hp)
  | .other (.variant _ _ value (some a) _ _), hp, _, _, hc =>
    obtain ⟨rfl, rfl, rfl, -⟩ := hp
    exact .payload .nil ⟨hc a rfl, rfl⟩
  | .nil, _, _, _, _ => exact .nil
  | .bool _, _, _, _, _ => exact .bool
  | .int _, _, _, _, _ => exact .int
  | .float _, _, _, _, _ => exact .float
  | .decimal _, _, _, _, _ => exact .decimal
  | .str _, _, _, _, _ => exact .str

theorem isomorphic_of_kept (hp : Proper x h root)
    (hcode : ∀ v, Occurs h root v → unsendableKind v = none)
    (hin : ∀ v, Occurs h root v → ∀ a, container? v = some a → a ∈ all)
    (hr : ∀ a ∈ all, Reached h root a) (hk : ∀ v, Occurs h root v → Kept far v) :
    Isomorphic h root (copyHeap (copies far all h)) (receive far (fun a => all.idxOf a) root) := by
  have hsame : ∀ v, Occurs h root v →
      Same (Numbered all) v (receive far (fun a => all.idxOf a) v) :=
    fun v hv => same_receive (hp.value hv) (hk v hv) (hcode v hv) (hin v hv)
  refine ⟨Numbered all, ?_, ?_, ?_, hsame root .root⟩
  · rintro a _ _ ⟨-, rfl⟩ ⟨-, rfl⟩
    rfl
  · rintro a a' b ⟨ha, rfl⟩ ⟨-, hb⟩
    exact (List.idxOf_inj ha).mp hb
  · rintro a _ ⟨ha, rfl⟩
    rw [copyHeap_idxOf ha, sameCell_receive]
    exact fun v hv => hsame v ((hr a ha).values hv)

theorem kept_of_isomorphic (hp : Proper x h root)
    (hin : ∀ v, Occurs h root v → ∀ a, container? v = some a → a ∈ all)
    (hi : Isomorphic h root (copyHeap (copies far all h))
      (receive far (fun a => all.idxOf a) root)) (hv : Occurs h root v) : Kept far v := by
  obtain ⟨R, -, -, hcell, hroot⟩ := hi
  have hsame : ∀ v, Occurs h root v → Same R v (receive far (fun a => all.idxOf a) v) := by
    intro v hv
    induction hv with
    | root => exact hroot
    | @inside w a v hw hc hm ih =>
      have hs := hcell _ _ (ih.container hc)
      rw [copyHeap_idxOf (hin w hw a hc), sameCell_receive] at hs
      exact hs v hm
  have hs := hsame v hv
  match v, hp.value hv, hs with
  | .other (.variant enumName name value none ctor hasDef), hproper, hs =>
    rw [receive] at hs
    rw [Kept]
    cases hfar : far enumName name with
    | none =>
      rw [hfar] at hs
      cases hs
      exact ⟨rfl, rfl⟩
    | some w =>
      rw [hfar] at hs
      cases hs with | unit hs => exact .unit (hs.of_scalar hproper)
  | .other (.variant _ _ _ (some _) _ _), _, _ => trivial
  | .other (.cell _), _, _ | .other (.code _), _, _ | .other (.regex _), _, _
  | .other (.shared _), _, _ | .nil, _, _ | .bool _, _, _ | .int _, _, _ | .float _, _, _
  | .decimal _, _, _ | .str _, _, _ => trivial

end Copy

variable [DecidableEq A] [Fintype A]

theorem checkSendable_ok (hok : checkSendable x h root = .ok ()) :
    ∃ seen, checkInner x h (walkFuel A) "" root [] = .ok seen := by
  rw [checkSendable] at hok
  cases hc : checkInner x h (walkFuel A) "" root [] with
  | error e =>
    rw [hc] at hok
    cases hok
  | ok seen => exact ⟨seen, rfl⟩

theorem checkSendable_decides (hp : Proper x h root) : checkSendable x h root ≠ .error none := by
  have henough : Enough (walkFuel A) ([] : List A) :=
    ⟨.nil, by rw [List.length_nil, walkFuel]; omega⟩
  obtain ⟨hne, -⟩ : Decides (checkInner x h (walkFuel A) "" root) [] :=
    checkInner_decides (fun v => hp.value) .root henough
  rw [checkSendable]
  cases hc : checkInner x h (walkFuel A) "" root [] with
  | error e =>
    rintro ⟨⟩
    exact hne hc
  | ok seen => exact nofun

variable [DecidableEq D] (far : String → String → Option (Val D Nat))

theorem clone_arrives (hp : Proper x h root) (hs : Small x h root)
    (hok : checkSendable x h root = .ok ()) :
    ∃ bs nodes all, encode x h root = .ok (some (bs, nodes)) ∧
      decode x far nodes bs =
        .ok (receive far (fun a => all.idxOf a) root, copies far all h) ∧
      (∀ v, Occurs h root v → unsendableKind v = none) ∧
      (∀ v, Occurs h root v → ∀ a, container? v = some a → a ∈ all) ∧
      ∀ a ∈ all, Reached h root a := by
  obtain ⟨seen, hcheck⟩ := checkSendable_ok hok
  have hcode : ∀ v, Occurs h root v → unsendableKind v = none :=
    fun v hv => no_code (fun v => hp.value) hcheck hv
  have hroom : Room (walkFuel A) 2 (.empty : Enc A) := ⟨.nil, le_of_eq rfl⟩
  obtain ⟨bs, e', he, hd, -⟩ := (value_total hp hcode).1 root (.inl .root) .empty hroom
  obtain ⟨new, hg, hr⟩ : Sends far h root [root] .empty bs e' (decodeValue x far) _ :=
    value_sends hp hs (.inl .root) he
  have hids : e'.ids = new := hg.ids
  have hreached : ∀ a ∈ e'.ids, Reached h root a := fun a ha => hg.reached a (hids ▸ ha)
  refine ⟨bs, e'.shared, e'.ids, ?_, ?_, hcode, fun v hv a => hg.reaches hv, hreached⟩
  · rw [encode, hok]
    exact congrArg (fun r => Except.ok
      (Option.map (fun p : List UInt8 × Enc A => (p.1, p.2.shared)) r)) he
  · obtain ⟨ns, hns, hlen⟩ := hg.shared
    have hsfit : e'.shared.length ≤ 2 ^ 32 := by
      have := hs.shared e'.ids hd hreached
      rw [hns, List.length_append, hlen, ← hids]
      simpa [Enc.empty] using this
    have hstage : Stage h .empty e' e'.ids e'.shared [] bs (bs.length + 1) :=
      ⟨List.prefix_refl _, List.prefix_refl _, hd, hs.containers _ hd hreached, hsfit, rfl,
        Nat.le_succ _⟩
    have hread := hr e'.ids e'.shared [] (bs.length + 1) hstage []
    rw [List.append_nil] at hread
    rw [decode, hread, hids]
    rfl

/-- The copy of a graph that passes the gate is isomorphic to it exactly when its variants
without a payload are kept; a graph that does not pass has no bytes. -/
theorem structured_clone_preserves (hp : Proper x h root) (hs : Small x h root) :
    checkSendable x h root ≠ .error none ∧
      (∀ e, checkSendable x h root = .error e → encode x h root = .error e) ∧
      (checkSendable x h root = .ok () →
        ∃ bs nodes copy cells, encode x h root = .ok (some (bs, nodes)) ∧
          decode x far nodes bs = .ok (copy, cells) ∧
          (Isomorphic h root (copyHeap cells) copy ↔ ∀ v, Occurs h root v → Kept far v)) := by
  refine ⟨checkSendable_decides hp, fun e he => by rw [encode, he]; rfl, fun hok => ?_⟩
  obtain ⟨bs, nodes, all, henc, hdec, hcode, hin, hr⟩ := clone_arrives far hp hs hok
  refine ⟨bs, nodes, _, _, henc, hdec, fun hi v hv => ?_, fun hk => ?_⟩
  · exact kept_of_isomorphic hp hin hi hv
  · exact isomorphic_of_kept hp hcode hin hr hk

/-- An array that holds itself and an enum variant. -/
def ring : Heap Empty Unit := fun _ =>
  .array [.other (.cell ()), .other (.variant "Color" "Red" .nil none false false)]

/-- No decimals, and keys that need no escapes. -/
def plainExt : Ext Empty where
  debugStr s := "\"" ++ s ++ "\""
  displayKey _ := "nil"
  decimalToString := nofun
  decimalFromStr _ := none
  regexCompiles _ := true

theorem ring_occurs (hv : Occurs ring (.other (.cell ())) v) :
    v = .other (.cell ()) ∨ v = .other (.variant "Color" "Red" .nil none false false) := by
  cases hv with
  | root => exact .inl rfl
  | inside _ _ hm => simpa [ring, Cell.values] using hm

theorem ring_proper : Proper plainExt ring (.other (.cell ())) where
  decimal := nofun
  value hv := by obtain rfl | rfl := ring_occurs hv <;> trivial
  cell _ := trivial

theorem ring_small : Small plainExt ring (.other (.cell ())) where
  value hv := by
    obtain rfl | rfl := ring_occurs hv
    · trivial
    · exact ⟨by show (utf8 "Color").length < 2 ^ 32; decide,
        by show (utf8 "Red").length < 2 ^ 32; decide, trivial⟩
  cell _ := by show 2 < 2 ^ 32; decide
  containers l hl _ := (hl.length_le_card.trans (by decide : Fintype.card Unit ≤ 2 ^ 32))
  shared l _ _ := by simp [ring, Cell.values, isShared]

theorem structured_clone_preserves_ring :
    ∃ bs nodes copy cells, encode plainExt ring (.other (.cell ())) = .ok (some (bs, nodes)) ∧
      decode plainExt (fun _ _ => none) nodes bs = .ok (copy, cells) ∧
      Isomorphic ring (.other (.cell ())) (copyHeap cells) copy := by
  obtain ⟨bs, nodes, copy, cells, henc, hdec, hiff⟩ :=
    (structured_clone_preserves (fun _ _ => none) ring_proper ring_small).2.2 rfl
  refine ⟨bs, nodes, copy, cells, henc, hdec, hiff.mpr fun v hv => ?_⟩
  obtain rfl | rfl := ring_occurs hv
  · trivial
  · exact ⟨rfl, rfl⟩

/-- A constructor that is not yet applied arrives as a variant that is none. -/
theorem constructor_arrives_applied :
    let mk : Val Empty Empty := .other (.variant "Shape" "Circle" .nil none true true)
    let h : Heap Empty Empty := nofun
    checkSendable plainExt h mk = .ok () ∧
      ∃ bs nodes copy cells, encode plainExt h mk = .ok (some (bs, nodes)) ∧
        decode plainExt (fun _ _ => none) nodes bs = .ok (copy, cells) ∧
        ¬ Isomorphic h mk (copyHeap cells) copy := by
  intro mk h
  have honly : ∀ v, Occurs h mk v → v = mk := by
    intro v hv
    cases hv with
    | root => rfl
    | @inside w a _ _ _ _ => exact nomatch a
  have hp : Proper plainExt h mk :=
    { decimal := nofun
      value := fun hv => by cases honly _ hv; trivial
      cell := fun {a} _ => nomatch a }
  have hs : Small plainExt h mk :=
    { value := fun hv => by
        cases honly _ hv
        exact ⟨by show (utf8 "Shape").length < 2 ^ 32; decide,
          by show (utf8 "Circle").length < 2 ^ 32; decide, trivial⟩
      cell := fun {a} _ => nomatch a
      containers := fun l hl _ => hl.length_le_card.trans (by decide : Fintype.card Empty ≤ 2 ^ 32)
      shared := fun l _ _ => by
        cases l with
        | nil => decide
        | cons a _ => exact nomatch a }
  obtain ⟨bs, nodes, all, henc, hdec, -⟩ := clone_arrives (fun _ _ => none) hp hs rfl
  refine ⟨rfl, bs, nodes, _, _, henc, hdec, ?_⟩
  rintro ⟨R, -, -, -, hsame⟩
  have hsame : Same R (Value.other (Handle.variant "Shape" "Circle" Value.nil none true true))
      (Value.other (Handle.variant "Shape" "Circle" Value.nil none false false)) := hsame
  cases hsame

end AScript.Worker
