import AScript.Worker.Graph

namespace AScript.Worker

open AScript.Lib AScript.Runtime

variable {D A : Type} {x : Ext D} {h : Heap D A} {root : Val D A}

section Receive

variable (far : String → String → Option (Val D Nat)) (f : A → Nat)

def scalar : Value D O → Value D O'
  | .nil => .nil
  | .bool b => .bool b
  | .int i => .int i
  | .float g => .float g
  | .decimal d => .decimal d
  | .str s => .str s
  | .other _ => .nil

def receive : Val D A → Val D Nat
  | .other (.cell a) => .other (.cell (f a))
  | .other (.code c) => .other (.code c)
  | .other (.regex source) => .other (.regex source)
  | .other (.shared node) => .other (.shared node)
  | .other (.variant enumName name value none _ _) =>
    (far enumName name).getD (.other (.variant enumName name (scalar value) none false false))
  | .other (.variant enumName name _ (some a) _ _) =>
    .other (.variant enumName name .nil (some (f a)) false false)
  | v => scalar v

def receiveCell : Cell D A → Cell D Nat
  | .array vs => .array (vs.map (receive far f))
  | .object m => .object (m.mapValues (receive far f))
  | .map m => .map (m.mapValues (receive far f))
  | .set m => .set m
  | .bytes raw => .bytes raw
  | .instance cls m => .instance ⟨cls.name, []⟩ (m.mapValues (receive far f))

@[simp] theorem kind_receiveCell (c : Cell D A) : (receiveCell far f c).kind = c.kind := by
  cases c <;> rfl

theorem receive_scalar {v : Val D A} (hv : IsScalar v) : receive far f v = scalar v := by
  cases v <;> first | rfl | cases hv

end Receive

structure Grows (h : Heap D A) (root : Val D A) (vs : List (Val D A)) (e : Enc A) (new : List A)
    (e' : Enc A) : Prop where
  ids : e'.ids = e.ids ++ new
  nodup : e.ids.Nodup → e'.ids.Nodup
  reached : ∀ a ∈ new, Reached h root a
  closed : ∀ a ∈ new, ∀ w ∈ (h a).values, ∀ b, container? w = some b → b ∈ e'.ids
  held : ∀ v ∈ vs, ∀ a, container? v = some a → a ∈ e'.ids
  shared : ∃ nodes, e'.shared = e.shared ++ nodes ∧
    nodes.length = vs.countP isShared + (new.map fun a => (h a).values.countP isShared).sum

namespace Grows

theorem refl (hv : ∀ v ∈ vs, container? v = none) (hs : vs.countP isShared = 0) :
    Grows h root vs e [] e where
  ids := by simp
  nodup := id
  reached := nofun
  closed := nofun
  held v hm a ha := by simp [hv v hm] at ha
  shared := ⟨[], by simp, by simp [hs]⟩

theorem trans (h₁ : Grows h root vs e new e') (h₂ : Grows h root ws e' new' e'') :
    Grows h root (vs ++ ws) e (new ++ new') e'' where
  ids := by rw [h₂.ids, h₁.ids, List.append_assoc]
  nodup := h₂.nodup ∘ h₁.nodup
  reached a ha := (List.mem_append.mp ha).elim (h₁.reached a) (h₂.reached a)
  closed a ha w hw b hb := by
    obtain ha | ha := List.mem_append.mp ha
    · rw [h₂.ids]
      exact List.mem_append_left _ (h₁.closed a ha w hw b hb)
    · exact h₂.closed a ha w hw b hb
  held v hv a ha := by
    obtain hv | hv := List.mem_append.mp hv
    · rw [h₂.ids]
      exact List.mem_append_left _ (h₁.held v hv a ha)
    · exact h₂.held v hv a ha
  shared := by
    obtain ⟨ns, hns, hl⟩ := h₁.shared
    obtain ⟨ns', hns', hl'⟩ := h₂.shared
    refine ⟨ns ++ ns', by rw [hns', hns, List.append_assoc], ?_⟩
    rw [List.length_append, hl, hl', List.countP_append, List.map_append, List.sum_append]
    omega

theorem enter (ha : Reached h root a) (hn : a ∉ e.ids)
    (hg : Grows h root (h a).values ⟨e.ids ++ [a], e.shared⟩ new e') :
    Grows h root [.other (.cell a)] e (a :: new) e' where
  ids := by rw [hg.ids, List.append_assoc, List.singleton_append]
  nodup hd := hg.nodup (by
    simpa [List.nodup_append, hd] using fun b hb => ne_of_mem_of_not_mem hb hn)
  reached := List.forall_mem_cons.mpr ⟨ha, hg.reached⟩
  closed := by
    refine List.forall_mem_cons.mpr ⟨hg.held, hg.closed⟩
  held v hv b hb := by
    cases List.mem_singleton.mp hv
    cases hb
    rw [hg.ids]
    simp
  shared := by
    obtain ⟨ns, hns, hl⟩ := hg.shared
    refine ⟨ns, hns, ?_⟩
    rw [hl, List.map_cons, List.sum_cons]
    simp [isShared]

theorem seen (ha : a ∈ e.ids) : Grows h root [.other (.cell a)] e [] e where
  ids := by simp
  nodup := id
  reached := nofun
  closed := nofun
  held v hv b hb := by
    cases List.mem_singleton.mp hv
    cases hb
    exact ha
  shared := ⟨[], by simp, by simp [isShared]⟩

theorem payload (hg : Grows h root [.other (.cell a)] e new e') :
    Grows h root [.other (.variant enumName name value (some a) ctor hasDef)] e new e' where
  ids := hg.ids
  nodup := hg.nodup
  reached := hg.reached
  closed := hg.closed
  held v hv b hb := by
    cases List.mem_singleton.mp hv
    cases hb
    exact hg.held _ List.mem_cons_self _ rfl
  shared := by simpa [isShared] using hg.shared

end Grows

structure Stage (h : Heap D A) (e e' : Enc A) (all : List A) (nodes : List Nat)
    (cells : List (Cell D Nat)) (bs : List UInt8) (m : Nat) : Prop where
  ids : e'.ids <+: all
  shared : e'.shared <+: nodes
  nodup : all.Nodup
  idsFit : all.length ≤ 2 ^ 32
  sharedFit : nodes.length ≤ 2 ^ 32
  tracks : cells.map Cell.kind = e.ids.map fun a => (h a).kind
  fuel : bs.length ≤ m

namespace Stage

variable {e e' e'' : Enc A} {all : List A} {nodes : List Nat} {cells : List (Cell D Nat)}
  {bs cs : List UInt8} {m : Nat}

theorem length (hf : Stage h e e' all nodes cells bs m) : cells.length = e.ids.length := by
  simpa using congrArg List.length hf.tracks

theorem idLt (hf : Stage h e ⟨e.ids ++ [a], ns⟩ all nodes cells bs m) : e.ids.length < 2 ^ 32 := by
  have := hf.ids.length_le.trans hf.idsFit
  rw [List.length_append] at this
  exact this

theorem mono (hf : Stage h e e' all nodes cells bs m) (hn : cs.length ≤ n) :
    Stage h e e' all nodes cells cs n :=
  { hf with fuel := hn }

theorem left (hf : Stage h e e'' all nodes cells (bs ++ cs) m) (hg : Grows h root vs e' new e'') :
    Stage h e e' all nodes cells bs m where
  ids := (hg.ids ▸ List.prefix_append _ _).trans hf.ids
  shared := by
    obtain ⟨ns, hns, -⟩ := hg.shared
    exact (hns ▸ List.prefix_append _ _).trans hf.shared
  nodup := hf.nodup
  idsFit := hf.idsFit
  sharedFit := hf.sharedFit
  tracks := hf.tracks
  fuel := by
    have := hf.fuel
    rw [List.length_append] at this
    omega

theorem right (hf : Stage h e e'' all nodes cells (bs ++ cs) m) (hg : Grows h root vs e new e')
    (far : String → String → Option (Val D Nat)) (f : A → Nat) :
    Stage h e' e'' all nodes (cells ++ new.map fun a => receiveCell far f (h a)) cs m where
  ids := hf.ids
  shared := hf.shared
  nodup := hf.nodup
  idsFit := hf.idsFit
  sharedFit := hf.sharedFit
  tracks := by simp [hf.tracks, hg.ids, Function.comp_def]
  fuel := by
    have := hf.fuel
    rw [List.length_append] at this
    omega

end Stage

theorem after_some {e e' : Enc A} {bs : List UInt8} {enc : Encoder A α}
    (he : Encoder.after pre enc a e = some (bs, e')) :
    ∃ cs, enc a e = some (cs, e') ∧ bs = pre ++ cs := by
  obtain ⟨⟨cs, e₁⟩, hc, he⟩ := Option.map_eq_some_iff.mp he
  cases he
  exact ⟨cs, hc, rfl⟩

theorem key_eq {k : MapKey D} (hk : ∃ v : Val D A, MapKey.fromValue v = some k) :
    MapKey.fromValue (scalar (k.toValue : Val D A) : Val D Nat) = some k := by
  have hr := (MapKey.roundtrip_iff k).mpr hk
  cases k <;> exact hr

theorem isScalar_toValue (k : MapKey D) : IsScalar (k.toValue : Val D A) := by
  cases k <;> trivial

section Sends

variable [DecidableEq A] (far : String → String → Option (Val D Nat))

def Sends (h : Heap D A) (root : Val D A) (vs : List (Val D A)) (e : Enc A) (bs : List UInt8)
    (e' : Enc A) (p : List Nat → Nat → Decoder D β) (r : (A → Nat) → β) : Prop :=
  ∃ new, Grows h root vs e new e' ∧ ∀ all nodes cells m, Stage h e e' all nodes cells bs m →
    Reads (p nodes m) bs cells (r fun a => all.idxOf a)
      (cells ++ new.map fun a => receiveCell far (fun a => all.idxOf a) (h a))

variable {far} {e e' : Enc A} {bs : List UInt8}

theorem sends_all {enc : Encoder A α} (vals : α → List (Val D A))
    {p : List Nat → Nat → Decoder D β} {r : (A → Nat) → α → β}
    (hx : ∀ a ∈ as, ∀ e bs e', enc a e = some (bs, e') →
      Sends far h root (vals a) e bs e' p fun f => r f a)
    (he : enc.all as e = some (bs, e')) :
    Sends far h root (as.flatMap vals) e bs e' (fun s m => Reader.many (p s m) as.length)
      fun f => as.map (r f) := by
  induction as generalizing e bs with
  | nil =>
    cases he
    refine ⟨[], .refl (by simp) (by simp), fun all nodes cells m _ => ?_⟩
    rw [List.map_nil, List.append_nil]
    exact .pure
  | cons a as ih =>
    rw [Encoder.all] at he
    obtain ⟨⟨bs₁, e₁⟩, ha, he⟩ := Option.bind_eq_some_iff.mp he
    obtain ⟨⟨bs₂, e₂⟩, has, he⟩ := Option.bind_eq_some_iff.mp he
    cases he
    obtain ⟨new₁, hg₁, hr₁⟩ := hx a List.mem_cons_self e bs₁ e₁ ha
    obtain ⟨new₂, hg₂, hr₂⟩ := ih (fun a ha => hx a (List.mem_cons_of_mem _ ha)) has
    refine ⟨new₁ ++ new₂, by simpa using hg₁.trans hg₂, fun all nodes cells m hf => ?_⟩
    have h₁ := hr₁ all nodes cells m (hf.left hg₂)
    have h₂ := hr₂ all nodes _ m (hf.right hg₁ far fun a => all.idxOf a)
    refine h₁.bind ?_
    rw [List.map_append, ← List.append_assoc]
    exact h₂.andThen .pure

theorem register_reads {id : Nat} {cells : List (Cell D Nat)} (hid : id = cells.length)
    (c : Cell D Nat) :
    Reads (Decoder.register id c) [] cells () (cells ++ [c]) := by
  refine Reads.state.first ?_
  rw [if_pos hid]
  exact .setState

theorem fill_reads {id : Nat} {cells more : List (Cell D Nat)} {c c' : Cell D Nat}
    (hid : id = cells.length) :
    Reads (Decoder.fill id c') [] (cells ++ [c] ++ more) (.other (.cell id))
      (cells ++ c' :: more) := by
  have hset : (cells ++ [c] ++ more).set id c' = cells ++ c' :: more := by
    subst hid
    simp
  rw [← hset]
  exact Reads.state.first (Reads.setState.first .pure)

theorem container_reads {read : Decoder D β} {c : List β → Cell D Nat} {body : List UInt8}
    {id : Nat} {empty : Cell D Nat} {cells more : List (Cell D Nat)} {ys : List β}
    (hid : id = cells.length) (hk : k < 2 ^ 32)
    (hb : Reads (Reader.many read k) body (cells ++ [empty]) ys (cells ++ [empty] ++ more)) :
    Reads (Decoder.container id empty read c) (le 4 k ++ body) cells (.other (.cell id))
      (cells ++ c ys :: more) :=
  (register_reads hid empty).first ((Reads.word hk).bind (hb.andThen (fill_reads hid)))

theorem idxOf_new {all : List A} (hp : e.ids ++ [a] <+: all) (hn : a ∉ e.ids) :
    all.idxOf a = e.ids.length := by
  obtain ⟨t, rfl⟩ := hp
  rw [List.append_assoc, List.idxOf_append_of_notMem hn]
  simp

theorem idxOf_old {all : List A} (hp : e.ids <+: all) (ha : a ∈ e.ids) :
    all.idxOf a = e.ids.idxOf a := by
  obtain ⟨t, rfl⟩ := hp
  exact List.idxOf_append_of_mem ha

theorem payload_reads {cells : List (Cell D Nat)} (hk : (cells[i]?).map Cell.kind = some kind) :
    Reads (Decoder.payload kind (.other (.cell i))) [] cells i cells := by
  refine Reads.state.first ?_
  simp only [hk, ↓reduceIte]
  exact .pure

theorem tracks_kind {all : List A} {cells : List (Cell D Nat)}
    (ht : cells.map Cell.kind = e.ids.map fun a => (h a).kind) (hp : e.ids <+: all)
    (ha : a ∈ e.ids) : (cells[all.idxOf a]?).map Cell.kind = some (h a).kind := by
  rw [idxOf_old hp ha, ← List.getElem?_map, ht, List.getElem?_map, List.getElem?_idxOf ha]
  rfl

variable [DecidableEq D]

theorem of_tag {cells cells' : List (Cell D Nat)} {w : Val D Nat}
    (hp : ∀ m, cs.length ≤ m →
      Reads (decodeValue x far nodes (m + 1)) ([tag] ++ cs) cells w cells')
    (hm : (tag :: cs).length ≤ m) : Reads (decodeValue x far nodes m)
      (tag :: cs) cells w cells' := by
  obtain ⟨m, rfl⟩ : ∃ k, m = k + 1 := ⟨m - 1, by rw [List.length_cons] at hm; omega⟩
  exact hp m (by simpa using hm)

variable (far) in
theorem scalar_sends {v : Val D A} (hv : IsScalar v) (hs : SmallScalar x v)
    (hd : ∀ d, x.decimalFromStr (x.decimalToString d) = some d)
    (he : encodeValue x h n v e = some (bs, e')) :
    e' = e ∧ ∀ nodes m cells, bs.length ≤ m →
      Reads (decodeValue x far nodes m) bs cells (scalar v) cells := by
  cases n with
  | zero => cases he
  | succ n =>
    cases v with
    | other => cases hv
    | nil =>
      cases he
      exact ⟨rfl, fun nodes m cells => of_tag fun m _ => (Reads.u8 _).bind .pure⟩
    | bool b =>
      cases he
      refine ⟨rfl, fun nodes m cells => of_tag fun m _ => ?_⟩
      refine (Reads.u8 _).bind ((Reads.u8 _).andThen ?_)
      cases b <;> exact .pure
    | int i =>
      cases he
      refine ⟨rfl, fun nodes m cells => of_tag fun m _ => ?_⟩
      refine (Reads.u8 _).bind ((Reads.word (by omega)).andThen ?_)
      have hi : I64.wrap ((i.val % 2 ^ 64).toNat : Int) = i := by
        rw [Int.toNat_of_nonneg (by omega)]
        exact i.wrap_val
      rw [hi]
      exact .pure
    | float g =>
      cases he
      refine ⟨rfl, fun nodes m cells => of_tag fun m _ => ?_⟩
      refine (Reads.u8 _).bind ((Reads.word g.bits.isLt).andThen ?_)
      rw [BitVec.ofNat_toNat, BitVec.setWidth_eq]
      exact .pure
    | decimal d =>
      cases he
      refine ⟨rfl, fun nodes m cells => of_tag fun m _ => ?_⟩
      refine (Reads.u8 _).bind ((Reads.str hs).andThen ?_)
      rw [hd d]
      exact .pure
    | str t =>
      cases he
      refine ⟨rfl, fun nodes m cells => of_tag fun m _ => ?_⟩
      exact (Reads.u8 _).bind ((Reads.str hs).andThen .pure)

theorem enter_sends {read : List Nat → Nat → Decoder D β} {r : (A → Nat) → List β}
    {body cs : List UInt8} (empty : Cell D Nat) (c : List β → Cell D Nat)
    (ha : Reached h root a) (hn : a ∉ e.ids) (hk : k < 2 ^ 32)
    (hb : Sends far h root (h a).values ⟨e.ids ++ [a], e.shared⟩ body e'
      (fun s m => Reader.many (read s m) k) r)
    (hkind : empty.kind = (h a).kind) (hc : ∀ f, c (r f) = receiveCell far f (h a))
    (hlen : body.length ≤ cs.length)
    (hdec : e.ids.length < 2 ^ 32 → ∀ nodes m cells w cells',
      Reads (Decoder.container e.ids.length empty (read nodes m) c)
        (le 4 k ++ body) cells w cells' →
      Reads (decodeValue x far nodes (m + 1)) ([tag] ++ cs) cells w cells') :
    Sends far h root [.other (.cell a)] e (tag :: cs) e' (decodeValue x far)
      fun f => receive far f (.other (.cell a)) := by
  obtain ⟨new, hg, hr⟩ := hb
  refine ⟨a :: new, .enter ha hn hg, fun all nodes cells m hf => ?_⟩
  have hpre : e.ids ++ [a] <+: all := (hg.ids ▸ List.prefix_append _ _).trans hf.ids
  have hfit : e.ids.length < 2 ^ 32 := by
    have := hpre.length_le.trans hf.idsFit
    rw [List.length_append] at this
    exact this
  refine of_tag (fun m hm => hdec hfit _ _ _ _ _ ?_) hf.fuel
  have htracks : (cells ++ [empty]).map Cell.kind = (e.ids ++ [a]).map fun a => (h a).kind := by
    simp [hf.tracks, hkind]
  have hreads := hr all nodes (cells ++ [empty]) m
    { hf with tracks := htracks, fuel := hlen.trans hm }
  have := container_reads (c := c) hf.length.symm hk hreads
  rw [hc] at this
  show Reads _ _ cells (Value.other (Handle.cell (all.idxOf a))) _
  rw [idxOf_new hpre hn, List.map_cons]
  exact this

theorem entry_sends {enc : Encoder A (Val D A)} (hk : Short (utf8 k))
    (hv : ∀ e bs e', enc v e = some (bs, e') →
      Sends far h root [v] e bs e' (decodeValue x far) fun f => receive far f v)
    (he : Encoder.after (putStr k) enc v e = some (bs, e')) :
    Sends far h root [v] e bs e' (fun s m => decodeEntry (decodeValue x far s m))
      fun f => (k, receive far f v) := by
  obtain ⟨cs, hcs, rfl⟩ := after_some he
  obtain ⟨new, hg, hr⟩ := hv _ _ _ hcs
  refine ⟨new, hg, fun all nodes cells m hf => ?_⟩
  have hm : cs.length ≤ m := by
    have := hf.fuel
    rw [List.length_append] at this
    omega
  exact (Reads.str hk).bind ((hr all nodes cells m (hf.mono hm)).andThen .pure)

theorem entries_sends {enc : Encoder A (Val D A)} {m : IndexMap String (Val D A)}
    (hs : ∀ k ∈ m.keys, Short (utf8 k))
    (hv : ∀ v ∈ m.values, ∀ e bs e', enc v e = some (bs, e') →
      Sends far h root [v] e bs e' (decodeValue x far) fun f => receive far f v)
    (he : Encoder.all (fun (k, v) => Encoder.after (putStr k) enc v) m.entries e = some (bs, e')) :
    Sends far h root m.values e bs e'
      (fun s n => Reader.many (decodeEntry (decodeValue x far s n)) m.len)
      fun f => m.entries.map fun e => (e.1, receive far f e.2) := by
  have hall := sends_all (r := fun f e => (e.1, receive far f e.2)) (fun e => [e.2])
    (fun e hm _ _ _ => entry_sends (hs _ (List.mem_map_of_mem hm)) (hv _ (List.mem_map_of_mem hm)))
    he
  rwa [← List.map_eq_flatMap] at hall

theorem mapEntry_sends {k : MapKey D} (hd : ∀ d, x.decimalFromStr (x.decimalToString d) = some d)
    (hk : ∃ v : Val D A, MapKey.fromValue v = some k) (hs : SmallScalar x (k.toValue : Val D A))
    (hv : ∀ e bs e', encodeValue x h n v e = some (bs, e') →
      Sends far h root [v] e bs e' (decodeValue x far) fun f => receive far f v)
    (he : (do
      let (bs, e) ← encodeValue x h n k.toValue e
      Encoder.after bs (encodeValue x h n) v e) = some (bs, e')) :
    Sends far h root [v] e bs e' (fun s m => decodeMapEntry (decodeValue x far s m))
      fun f => (k, receive far f v) := by
  obtain ⟨⟨ks, e₁⟩, hks, hes⟩ := Option.bind_eq_some_iff.mp he
  obtain ⟨rfl, hrk⟩ := scalar_sends far (isScalar_toValue k) hs hd hks
  obtain ⟨cs, hcs, rfl⟩ := after_some hes
  obtain ⟨new, hg, hr⟩ := hv _ _ _ hcs
  refine ⟨new, hg, fun all nodes cells m hf => ?_⟩
  have hm := hf.fuel
  rw [List.length_append] at hm
  refine (hrk nodes m cells (by omega)).bind
    ((hr all nodes cells m (hf.mono (by omega))).andThen ?_)
  rw [Decoder.key, key_eq hk]
  exact Reads.pure.first .pure

theorem setElem_sends {k : MapKey D} (hd : ∀ d, x.decimalFromStr (x.decimalToString d) = some d)
    (hk : ∃ v : Val D A, MapKey.fromValue v = some k) (hs : SmallScalar x (k.toValue : Val D A))
    (he : encodeValue x h n k.toValue e = some (bs, e')) :
    Sends far h root [] e bs e' (fun s m => decodeSetElem (decodeValue x far s m))
      fun _ => (k, ()) := by
  obtain ⟨rfl, hrk⟩ := scalar_sends far (isScalar_toValue k) hs hd he
  refine ⟨[], .refl (by simp) (by simp), fun all nodes cells m hf => ?_⟩
  rw [List.map_nil, List.append_nil]
  refine (hrk nodes m cells hf.fuel).andThen ?_
  rw [Decoder.key, key_eq hk]
  exact Reads.pure.first .pure

theorem mapEntries_sends {m : IndexMap (MapKey D) (Val D A)}
    (hd : ∀ d, x.decimalFromStr (x.decimalToString d) = some d) (hp : ProperCell (.map m))
    (hs : ∀ k ∈ m.keys, SmallScalar x (k.toValue : Val D A))
    (hv : ∀ v ∈ m.values, ∀ e bs e', encodeValue x h n v e = some (bs, e') →
      Sends far h root [v] e bs e' (decodeValue x far) fun f => receive far f v)
    (he : Encoder.all (fun (k, v) e => do
        let (bs, e) ← encodeValue x h n k.toValue e
        Encoder.after bs (encodeValue x h n) v e) m.entries e = some (bs, e')) :
    Sends far h root m.values e bs e'
      (fun s n => Reader.many (decodeMapEntry (decodeValue x far s n)) m.len)
      fun f => m.entries.map fun e => (e.1, receive far f e.2) := by
  have hall := sends_all (r := fun f e => (e.1, receive far f e.2)) (fun e => [e.2])
    (fun e hm _ _ _ => mapEntry_sends hd (hp _ (List.mem_map_of_mem hm))
      (hs _ (List.mem_map_of_mem hm)) (hv _ (List.mem_map_of_mem hm))) he
  rwa [← List.map_eq_flatMap] at hall

theorem setElems_sends {m : IndexMap (MapKey D) Unit}
    (hd : ∀ d, x.decimalFromStr (x.decimalToString d) = some d)
    (hp : ProperCell (.set m : Cell D A)) (hs : ∀ k ∈ m.keys, SmallScalar x (k.toValue : Val D A))
    (he : Encoder.all (fun (k, _) => encodeValue x h n k.toValue) m.entries e = some (bs, e')) :
    Sends far h root [] e bs e'
      (fun s n => Reader.many (decodeSetElem (decodeValue x far s n)) m.len)
      fun _ => m.entries := by
  have hone : ∀ q ∈ m.entries, ∀ e bs e', encodeValue x h n q.1.toValue e = some (bs, e') →
      Sends far h root [] e bs e' (fun s n => decodeSetElem (decodeValue x far s n))
        fun _ => (q.1, ()) :=
    fun q hm _ _ _ => setElem_sends hd (hp _ (List.mem_map_of_mem hm))
      (hs _ (List.mem_map_of_mem hm))
  have hnil : (m.entries.flatMap fun _ => ([] : List (Val D A))) = [] := by simp
  have hall := sends_all (fun _ => []) hone he
  rw [hnil] at hall
  simpa [IndexMap.len] using hall

theorem ofPairs_mapValues [DecidableEq K] (m : IndexMap K V) (g : V → W) :
    IndexMap.ofPairs (m.entries.map fun e => (e.1, g e.2)) = m.mapValues g :=
  IndexMap.ofPairs_entries (m.mapValues g)

theorem cell_sends (hd : ∀ d, x.decimalFromStr (x.decimalToString d) = some d)
    (hp : ProperCell (h a)) (hs : SmallCell x (h a)) (ha : Reached h root a) (hn : a ∉ e.ids)
    (hv : ∀ v ∈ (h a).values, ∀ e bs e', encodeValue x h n v e = some (bs, e') →
      Sends far h root [v] e bs e' (decodeValue x far) fun f => receive far f v)
    (he : encodeCell (encodeValue x h n) e.ids.length (h a) ⟨e.ids ++ [a], e.shared⟩ =
      some (bs, e')) :
    Sends far h root [.other (.cell a)] e bs e' (decodeValue x far)
      fun f => receive far f (.other (.cell a)) := by
  cases hc : h a with
  | array vs =>
    rw [hc] at he hs hv
    obtain ⟨body, hb, rfl⟩ := after_some he
    have hb := sends_all (fun v => [v]) hv hb
    rw [List.flatMap_singleton'] at hb
    simp only [List.cons_append, List.append_assoc]
    refine enter_sends (.array []) .array ha hn hs (by rw [hc]; exact hb) (by rw [hc]; rfl)
      (fun f => by rw [hc]; rfl) (by simp; omega) fun hid nodes m cells w cells' hr => ?_
    exact (Reads.u8 _).bind ((Reads.word hid).bind hr)
  | object m =>
    rw [hc] at he hs hv
    obtain ⟨body, hb, rfl⟩ := after_some he
    have hb := entries_sends hs.2 hv hb
    simp only [List.cons_append, List.append_assoc]
    refine enter_sends (.object .empty) (fun kvs => .object (.ofPairs kvs)) ha hn hs.1
      (by rw [hc]; exact hb) (by rw [hc]; rfl) (fun f => by rw [hc, ofPairs_mapValues]; rfl)
      (by simp; omega) fun hid nodes m cells w cells' hr => ?_
    exact (Reads.u8 _).bind ((Reads.word hid).bind hr)
  | map m =>
    rw [hc] at he hs hv hp
    obtain ⟨body, hb, rfl⟩ := after_some he
    have hb := mapEntries_sends hd hp hs.2 hv hb
    simp only [List.cons_append, List.append_assoc]
    refine enter_sends (.map .empty) (fun kvs => .map (.ofPairs kvs)) ha hn hs.1
      (by rw [hc]; exact hb) (by rw [hc]; rfl) (fun f => by rw [hc, ofPairs_mapValues]; rfl)
      (by simp; omega) fun hid nodes m cells w cells' hr => ?_
    exact (Reads.u8 _).bind ((Reads.word hid).bind hr)
  | set m =>
    rw [hc] at he hs hp
    obtain ⟨body, hb, rfl⟩ := after_some he
    have hb : Sends far h root [] _ body e' _ _ := setElems_sends hd hp hs.2 hb
    simp only [List.cons_append, List.append_assoc]
    refine enter_sends (.set .empty) (fun ks => .set (.ofPairs ks)) ha hn hs.1
      (by rw [hc]; exact hb) (by rw [hc]; rfl)
      (fun f => by rw [hc, IndexMap.ofPairs_entries]; rfl)
      (by simp; omega) fun hid nodes m cells w cells' hr => ?_
    exact (Reads.u8 _).bind ((Reads.word hid).bind hr)
  | bytes raw =>
    rw [hc] at he hs
    cases he
    refine ⟨[a], .enter ha hn (.refl (by simp [hc, Cell.values]) (by simp [hc, Cell.values])), ?_⟩
    intro all nodes cells m hf
    have hid := hf.idLt
    refine of_tag (fun m hm => (Reads.u8 _).bind ((Reads.word hid).bind ?_)) hf.fuel
    have hfill : Reads (Decoder.fill e.ids.length (.bytes raw)) [] (cells ++ [.bytes []] ++ [])
        (.other (.cell e.ids.length)) (cells ++ [.bytes raw]) := fill_reads hf.length.symm
    rw [List.append_nil] at hfill
    show Reads _ _ cells (Value.other (Handle.cell (all.idxOf a))) _
    rw [idxOf_new hf.ids hn, List.map_singleton, hc]
    exact (register_reads hf.length.symm (.bytes [])).first ((Reads.bytes hs).andThen hfill)
  | «instance» cls m =>
    rw [hc] at he hs hv
    obtain ⟨body, hb, rfl⟩ := after_some he
    have hb := entries_sends hs.2.2 hv hb
    simp only [List.cons_append, List.append_assoc]
    refine enter_sends (.instance ⟨cls.name, []⟩ .empty)
      (fun kvs => .instance ⟨cls.name, []⟩ (.ofPairs kvs)) ha hn hs.2.1
      (by rw [hc]; exact hb) (by rw [hc]; rfl) (fun f => by rw [hc, ofPairs_mapValues]; rfl)
      (by simp; omega) fun hid nodes m cells w cells' hr => ?_
    exact (Reads.u8 _).bind ((Reads.word hid).bind ((Reads.str hs.1).bind hr))

theorem ref_sends (ha : a ∈ e.ids) :
    Sends far h root [.other (.cell a)] e (Tag.ref :: le 4 (e.ids.idxOf a)) e (decodeValue x far)
      fun f => receive far f (.other (.cell a)) := by
  refine ⟨[], .seen ha, fun all nodes cells m hf => ?_⟩
  have hlt : e.ids.idxOf a < e.ids.length := List.idxOf_lt_length_of_mem ha
  have hle := hf.ids.length_le.trans hf.idsFit
  refine of_tag (fun m _ => (Reads.u8 _).bind ((Reads.word (by omega)).andThen ?_)) hf.fuel
  rw [List.map_nil, List.append_nil]
  refine Reads.state.first ?_
  rw [if_pos (hf.length.symm ▸ hlt)]
  show Reads _ _ cells (Value.other (Handle.cell (all.idxOf a))) _
  rw [idxOf_old hf.ids ha]
  exact .pure

theorem unit_sends (hd : ∀ d, x.decimalFromStr (x.decimalToString d) = some d) {value : Val D A}
    (hv : IsScalar value)
    (hs : SmallVal x (.other (.variant enumName name value none ctor hasDef) : Val D A))
    (he : encodeValue x h n value e = some (bs, e')) :
    Sends far h root [.other (.variant enumName name value none ctor hasDef)] e
      (Tag.enum :: putStr enumName ++ putStr name ++ bs ++ [0]) e' (decodeValue x far)
      fun f => receive far f (.other (.variant enumName name value none ctor hasDef)) := by
  obtain ⟨rfl, hr⟩ := scalar_sends far hv hs.2.2 hd he
  refine ⟨[], .refl (by simp [container?]) (by simp [isShared]), fun all nodes cells m hf => ?_⟩
  simp only [List.cons_append, List.append_assoc] at hf ⊢
  refine of_tag (fun m hm => ?_) hf.fuel
  simp only [List.length_append] at hm
  rw [List.map_nil, List.append_nil]
  exact (Reads.u8 _).bind ((Reads.str hs.1).bind ((Reads.str hs.2.1).bind
    ((hr nodes m cells (by omega)).bind ((Reads.u8 _).andThen .pure))))

theorem payload_sends
    (hs : SmallVal x (.other (.variant enumName name .nil (some a) ctor hasDef) : Val D A))
    (ht : payloadTag (h a) = some tag)
    (hv : Sends far h root [.other (.cell a)] e cs e' (decodeValue x far)
      fun f => receive far f (.other (.cell a))) :
    Sends far h root [.other (.variant enumName name .nil (some a) ctor hasDef)] e
      (Tag.enum :: putStr enumName ++ putStr name ++ [Tag.nil] ++ [tag] ++ cs) e'
        (decodeValue x far)
      fun f => receive far f (.other (.variant enumName name .nil (some a) ctor hasDef)) := by
  obtain ⟨new, hg, hr⟩ := hv
  refine ⟨new, hg.payload, fun all nodes cells m hf => ?_⟩
  simp only [List.cons_append, List.append_assoc] at hf ⊢
  refine of_tag (fun m hm => ?_) hf.fuel
  simp only [List.length_append, List.length_cons] at hm
  have hnil : Reads (decodeValue x far nodes m) [Tag.nil] cells .nil cells :=
    of_tag (fun m _ => (Reads.u8 _).bind .pure) (by rw [List.length_singleton]; omega)
  refine (Reads.u8 _).bind ((Reads.str hs.1).bind ((Reads.str hs.2.1).bind (hnil.bind ?_)))
  have hval := hr all nodes cells m (hf.mono (by omega))
  have ha : a ∈ e'.ids := hg.held _ List.mem_cons_self _ rfl
  have htracks : (cells ++ new.map fun a => receiveCell far (fun a => all.idxOf a) (h a)).map
      Cell.kind = e'.ids.map fun a => (h a).kind := by
    simp [hf.tracks, hg.ids, Function.comp_def]
  have hkind := tracks_kind htracks hf.ids ha
  refine (Reads.u8 tag).bind ?_
  cases hc : h a with
  | array =>
    rw [hc] at ht hkind
    cases ht
    exact hval.andThen ((payload_reads hkind).first .pure)
  | object =>
    rw [hc] at ht hkind
    cases ht
    exact hval.andThen ((payload_reads hkind).first .pure)
  | _ =>
    rw [hc] at ht
    cases ht

theorem scalar_value_sends {v : Val D A} (hv : IsScalar v)
    (hd : ∀ d, x.decimalFromStr (x.decimalToString d) = some d) (hs : SmallVal x v)
    (he : encodeValue x h n v e = some (bs, e')) :
    Sends far h root [v] e bs e' (decodeValue x far) fun f => receive far f v := by
  have hs' : SmallScalar x v := by cases v <;> first | exact hs | cases hv
  have hc : container? v = none := by cases v <;> first | rfl | cases hv
  have hn : isShared v = false := by cases v <;> first | rfl | cases hv
  obtain ⟨rfl, hr⟩ := scalar_sends far hv hs' hd he
  refine ⟨[], .refl (by simpa using hc) (by simp [hn]), fun all nodes cells m hf => ?_⟩
  beta_reduce
  rw [List.map_nil, List.append_nil, receive_scalar far _ hv]
  exact hr nodes m cells hf.fuel

theorem shared_sends :
    Sends far h root [.other (.shared node)] e (Tag.shared :: le 4 e.shared.length)
      { e with shared := e.shared ++ [node] } (decodeValue x far)
      fun f => receive far f (.other (.shared node)) := by
  have hg : Grows h root [.other (.shared node)] e [] { e with shared := e.shared ++ [node] } :=
    { ids := by simp
      nodup := id
      reached := nofun
      closed := nofun
      held := fun v hv a ha => by
        cases List.mem_singleton.mp hv
        cases ha
      shared := ⟨[node], rfl, by simp [isShared]⟩ }
  refine ⟨[], hg, fun all nodes cells m hf => ?_⟩
  obtain ⟨t, ht⟩ := hf.shared
  have hlt : e.shared.length < 2 ^ 32 := by
    have := hf.shared.length_le.trans hf.sharedFit
    rw [List.length_append] at this
    exact this
  have hnode : nodes[e.shared.length]? = some node := by
    rw [← ht]
    simp
  refine of_tag (fun m _ => (Reads.u8 _).bind ((Reads.word hlt).andThen ?_)) hf.fuel
  rw [List.map_nil, List.append_nil, hnode]
  exact .pure

def Legit (h : Heap D A) (root v : Val D A) : Prop :=
  Occurs h root v ∨ ∃ a, v = .other (.cell a) ∧ Reached h root a

theorem value_sends (hp : Proper x h root) (hs : Small x h root) (hv : Legit h root v)
    (he : encodeValue x h n v e = some (bs, e')) :
    Sends far h root [v] e bs e' (decodeValue x far) fun f => receive far f v := by
  induction n generalizing v e bs e' with
  | zero => cases he
  | succ n ih =>
    -- a container is sent under its id, for its values by induction
    have hcell : ∀ a, v = .other (.cell a) → Reached h root a →
        Sends far h root [v] e bs e' (decodeValue x far) fun f => receive far f v := by
      rintro a rfl ha
      by_cases hm : a ∈ e.ids
      · rw [encodeValue, Enc.intern, if_pos hm] at he
        cases he
        exact ref_sends hm
      · rw [encodeValue, Enc.intern, if_neg hm] at he
        exact cell_sends hp.decimal (hp.cell ha) (hs.cell ha) ha hm
          (fun v hv e bs e' => ih (.inl (ha.values hv))) he
    obtain hv | ⟨a, rfl, ha⟩ := hv
    · have hproper := hp.value hv
      have hsmall := hs.value hv
      match v, he, hproper, hsmall with
      | .other (.cell a), _, _, _ => exact hcell a rfl ⟨_, hv, rfl⟩
      | .other (.variant enumName name value none ctor hasDef), he, hproper, hsmall =>
        obtain ⟨⟨cs, e₁⟩, hc, he⟩ := Option.bind_eq_some_iff.mp he
        cases he
        exact unit_sends hp.decimal hproper hsmall hc
      | .other (.variant enumName name value (some a) ctor hasDef), he, hproper, hsmall =>
        obtain ⟨rfl, -, -, htag⟩ := hproper
        obtain ⟨⟨cs, e₁⟩, hc, he⟩ := Option.bind_eq_some_iff.mp he
        obtain ⟨tag, ht, he⟩ := Option.bind_eq_some_iff.mp he
        obtain ⟨bs, hb, rfl⟩ := after_some he
        cases n with
        | zero => cases hc
        | succ n =>
          cases hc
          exact payload_sends hsmall ht (ih (.inr ⟨a, rfl, _, hv, rfl⟩) hb)
      | .other (.regex source), he, hproper, hsmall =>
        cases he
        refine ⟨[], .refl (by simp [container?]) (by simp [isShared]),
          fun all nodes cells m hf => ?_⟩
        refine of_tag (fun m _ => (Reads.u8 _).bind ((Reads.str hsmall).andThen ?_)) hf.fuel
        have hre : x.regexCompiles source = true := hproper
        rw [List.map_nil, List.append_nil, if_pos hre]
        exact .pure
      | .other (.shared node), he, _, _ =>
        cases he
        exact shared_sends
      | .nil, he, _, hsmall | .bool b, he, _, hsmall | .int i, he, _, hsmall
      | .float g, he, _, hsmall | .decimal d, he, _, hsmall | .str s, he, _, hsmall =>
        exact scalar_value_sends (by trivial) hp.decimal hsmall he
    · exact hcell a rfl ha

end Sends

end AScript.Worker
