import AScript.Bytecode.AsoErasure

namespace AScript.Bytecode.Aso

open AScript.Lib AScript.Syntax

section Basic

variable {α β γ : Type}

theorem u8_trip (b : UInt8) : Trip (Put.u8 b) (Put.u8 b) (fun _ => Get.u8) b := .u8 b

theorem flag_trip (b : Bool) : Trip (Put.flag b) (Put.flag b) (fun _ => Get.flag) b := .flag b

theorem word_trip (k : Nat) (h : n < 256 ^ k) (g : Nat → α) :
    Trip (Writer.word k n : Put) (Writer.word k n)
      (fun _ => do return g (← Reader.word .truncated k)) (g n) :=
  (Trip.word h).map

theorem u16_trip (n : UInt16) : Trip (Put.u16 n) (Put.u16 n) (fun _ => Get.u16) n := by
  have h := word_trip 2 n.toNat_lt UInt16.ofNat
  rwa [UInt16.ofNat_toNat] at h

theorem u32_trip (n : UInt32) : Trip (Put.u32 n) (Put.u32 n) (fun _ => Get.u32) n := by
  have h := word_trip 4 n.toNat_lt UInt32.ofNat
  rwa [UInt32.ofNat_toNat] at h

theorem u64_trip (n : UInt64) : Trip (Put.u64 n) (Put.u64 n) (fun _ => Get.u64) n := by
  have h := word_trip 8 n.toNat_lt UInt64.ofNat
  rwa [UInt64.ofNat_toNat] at h

theorem f64_trip (f : F64) : Trip (Put.f64 f) (Put.f64 f) (fun _ => Get.f64) f := by
  have h := word_trip 8 f.bits.isLt fun n => (⟨BitVec.ofNat 64 n⟩ : F64)
  rwa [BitVec.ofNat_toNat, BitVec.setWidth_eq] at h

theorem i64_trip (i : I64) : Trip (Put.i64 i) (Put.i64 i) (fun _ => Get.i64) i := by
  have hnonneg : 0 ≤ i.val % 2 ^ 64 := Int.emod_nonneg _ (by decide)
  have hlt : (i.val % 2 ^ 64).toNat < 256 ^ 8 := by
    have := Int.emod_lt_of_pos i.val (show (0 : Int) < 2 ^ 64 by decide)
    omega
  have h := word_trip 8 hlt fun n => I64.wrap n
  rwa [Int.toNat_of_nonneg hnonneg, I64.wrap_val] at h

theorem str_trip (h : Short s) : Trip (Put.str s) (Put.str s) (fun _ => Get.str) s := .str h

theorem bytes_trip (h : Few bs) : Trip (Put.bytes bs) (Put.bytes bs) (fun _ => Get.bytes) bs :=
  .bytes h

theorem span_trip (s : Span) : Trip (Put.span s) (Put.span s) (fun _ => Get.span) s :=
  (u64_trip s.start).bind (u64_trip s.stop).map

theorem opt_trip {put put' : α → Put} {get : Nat → Get β} {f : α → α} {g : α → β} (what : String)
    (o : Option α) (h : ∀ a ∈ o, Trip (put a) (put' (f a)) get (g a)) :
    Trip (Put.opt put o) (Put.opt put' (o.map f)) (fun n => Get.opt what (get n)) (o.map g) := by
  cases o with
  | none => exact (u8_trip 0).andThen fun _ => .pure
  | some a => exact (u8_trip 1).bind (h a rfl).map

theorem optFlag_trip {put : α → Put} {get : Nat → Get α} (o : Option α)
    (h : ∀ a ∈ o, Trip (put a) (put a) get a) :
    Trip (Put.opt put o) (Put.opt put o) (fun n => Get.optFlag (get n)) o := by
  cases o with
  | none => exact (flag_trip false).andThen fun _ => .pure
  | some a => exact (flag_trip true).bind (h a rfl).map

theorem counted_trip {w w' : Put} {get : Nat → Get β} {as : List α} {as' : List γ} {bs : List β}
    (hf : Few as) (hn : as'.length = as.length) (hm : bs.length = as.length)
    (h : Trip w w' (fun n => Reader.many (get n) bs.length) bs) :
    Trip (Put.counted as.length w) (Put.counted as'.length w') (fun n => Get.list (get n)) bs := by
  rw [hn]
  rw [hm] at h
  exact (Trip.len hf).bind h

theorem list_trip {put put' : α → Put} {get : Nat → Get β} {f : α → α} {g : α → β} {as : List α}
    (hf : Few as) (h : ∀ a ∈ as, Trip (put a) (put' (f a)) get (g a)) :
    Trip (Put.list put as) (Put.list put' (as.map f)) (fun n => Get.list (get n)) (as.map g) := by
  refine counted_trip hf (List.length_map f) (List.length_map g) ?_
  clear hf
  induction as with
  | nil => exact .nil
  | cons a as ih => exact .cons (h a (.head as)) (ih fun b hb => h b (.tail a hb))

theorem list_self_trip {put : α → Put} {get : Nat → Get α} {as : List α} (hf : Few as)
    (h : ∀ a ∈ as, Trip (put a) (put a) get a) :
    Trip (Put.list put as) (Put.list put as) (fun n => Get.list (get n)) as := by
  have ht := list_trip (f := id) (g := id) hf h
  rwa [List.map_id] at ht

end Basic

theorem length_eraseTypes : ∀ ts, (eraseTypes ts).length = ts.length
  | [] => rfl
  | _ :: ts => congrArg (· + 1) (length_eraseTypes ts)

mutual

theorem type_trip : ∀ t, TypeFits t →
    Trip (writeType t) (writeType (eraseType t)) readType (eraseType t)
  | .number, _ => .succ ((u8_trip 0).andThen fun _ => .pure)
  | .int, _ => .succ ((u8_trip 16).andThen fun _ => .pure)
  | .float, _ => .succ ((u8_trip 17).andThen fun _ => .pure)
  | .string, _ => .succ ((u8_trip 1).andThen fun _ => .pure)
  | .bool, _ => .succ ((u8_trip 2).andThen fun _ => .pure)
  | .nil, _ => .succ ((u8_trip 3).andThen fun _ => .pure)
  | .any, _ => .succ ((u8_trip 4).andThen fun _ => .pure)
  | .fn, _ => .succ ((u8_trip 5).andThen fun _ => .pure)
  | .object, _ => .succ ((u8_trip 6).andThen fun _ => .pure)
  | .error, _ => .succ ((u8_trip 7).andThen fun _ => .pure)
  | .array t, h => .succ ((u8_trip 8).bind (type_trip t h).map)
  | .result t, h => .succ ((u8_trip 9).bind (type_trip t h).map)
  | .tuple ts, h =>
    have hts := counted_trip h.1 (length_eraseTypes ts) (length_eraseTypes ts) (types_trip ts h.2)
    .succ ((u8_trip 10).bind hts.map)
  | .union a b, h => .succ ((u8_trip 11).bind ((type_trip a h.1).bind (type_trip b h.2).map))
  | .named _, h => .succ ((u8_trip 12).bind (str_trip h).map)
  | .map k v, h => .succ ((u8_trip 13).bind ((type_trip k h.1).bind (type_trip v h.2).map))
  | .future t, h => .succ ((u8_trip 14).bind (type_trip t h).map)
  | .optional t, h => .succ ((u8_trip 15).bind (type_trip t h).map)
  | .param _, _ => .succ ((u8_trip 4).andThen fun _ => .pure)
  | .fnSig _ _, _ => .succ ((u8_trip 5).andThen fun _ => .pure)

theorem types_trip : ∀ ts, TypesFit ts →
    Trip (writeTypes ts) (writeTypes (eraseTypes ts))
      (fun n => Reader.many (readType n) (eraseTypes ts).length) (eraseTypes ts)
  | [], _ => .nil
  | t :: ts, h => .cons (type_trip t h.1) (types_trip ts h.2)

end

/-- Decimals survive their 16 bytes. -/
structure Ext.Lawful (x : Ext) : Prop where
  length_serialize : ∀ d, (x.serialize d).length = 16
  deserialize_serialize : ∀ d, x.deserialize (x.serialize d) = d

theorem decimal_trip {x : Ext} (hx : x.Lawful) (d : Decimal) :
    Trip (Writer.put (x.serialize d)) (Writer.put (x.serialize d)) (fun _ => readDecimal x) d := by
  have ht : Trip (Writer.put (x.serialize d) : Put) (Writer.put (x.serialize d))
      (fun _ => Reader.take .truncated (x.serialize d).length) (x.serialize d) :=
    ⟨0, _, .put _, .put _, fun _ _ => .take⟩
  rw [hx.length_serialize] at ht
  have hd := ht.map (g := x.deserialize)
  rwa [hx.deserialize_serialize] at hd

theorem field_trip (h : FieldFits f) :
    Trip (writeField f) (writeField (eraseField f)) readField (eraseField f) :=
  (optFlag_trip f.1 fun _ hn => str_trip (h.1 _ hn)).bind (type_trip f.2 h.2).map

theorem schema_trip (h : SchemaFits s) :
    Trip (writeSchema s) (writeSchema (eraseSchema s)) readSchema (eraseSchema s) :=
  (str_trip h.1).bind (list_trip h.2.1 fun f hf => field_trip (h.2.2 f hf)).map

theorem length_eraseVariants : ∀ vs, (eraseVariants vs).length = vs.length
  | [] => rfl
  | _ :: vs => congrArg (· + 1) (length_eraseVariants vs)

theorem keys_eraseVariants : ∀ vs, (eraseVariants vs).map Prod.fst = vs.map Prod.fst
  | [] => rfl
  | (key, _) :: vs => congrArg (key :: ·) (keys_eraseVariants vs)

theorem keys_eraseSchemas (ss : List (String × List (Option String × Ty))) :
    (ss.map eraseSchema).map Prod.fst = ss.map Prod.fst := by
  rw [List.map_map]
  rfl

theorem length_eraseConsts : ∀ vs, (eraseConsts vs).length = vs.length
  | [] => rfl
  | _ :: vs => congrArg (· + 1) (length_eraseConsts vs)

theorem entries_ofPairs {ps : List (String × α)} (h : (ps.map Prod.fst).Nodup) :
    (IndexMap.ofPairs ps).entries = ps :=
  congrArg IndexMap.entries (IndexMap.ofPairs_entries ⟨ps, h⟩)

mutual

theorem value_trip {x : Ext} (hx : x.Lawful) : ∀ v, ConstFits v →
    Trip (writeValue x v) (writeValue x (eraseConst v)) (readValue x) (eraseConst v)
  | .nil, _ => .succ ((u8_trip 0).andThen fun _ => .pure)
  | .bool b, _ => .succ ((u8_trip 1).bind (flag_trip b).map)
  | .int i, _ => .succ ((u8_trip 7).bind (i64_trip i).map)
  | .float f, _ => .succ ((u8_trip 2).bind (f64_trip f).map)
  | .str _, h => .succ ((u8_trip 3).bind (str_trip h).map)
  | .decimal d, _ => .succ ((u8_trip 4).bind (decimal_trip hx d).map)
  | .enum name variants schemas, ⟨hname, ⟨hfew, hnodup, hvs⟩, hfew', hnodup', hss⟩ => by
    refine .succ ((u8_trip 5).bind ((str_trip hname).bind ?_))
    refine (counted_trip hfew (length_eraseVariants variants) (length_eraseVariants variants)
      (variants_trip hx variants hvs)).bind ?_
    refine (list_trip hfew' fun s hs => schema_trip (hss s hs)).andThen fun _ => ?_
    rw [entries_ofPairs (by rwa [keys_eraseVariants]), entries_ofPairs (by rwa [keys_eraseSchemas])]
    exact .pure
  | .array vs, h =>
    have hvs := counted_trip h.1 (length_eraseConsts vs) (length_eraseConsts vs)
      (values_trip hx vs h.2)
    .succ ((u8_trip 6).bind hvs.map)
  | .other _, h => h.elim

theorem variant_trip {x : Ext} (hx : x.Lawful) : ∀ v, VariantFits v →
    Trip (writeVariant x v) (writeVariant x (eraseVariant v))
      (fun n => readVariant (readValue x n)) (eraseVariant v)
  | (_, _, _, value, ctor), ⟨hkey, henum, hname, hvalue⟩ =>
    (str_trip hkey).bind ((str_trip henum).bind ((str_trip hname).bind
      ((value_trip hx value hvalue).bind (flag_trip ctor).map)))

theorem variants_trip {x : Ext} (hx : x.Lawful) : ∀ vs, VariantsFit vs →
    Trip (writeVariants x vs) (writeVariants x (eraseVariants vs))
      (fun n => Reader.many (readVariant (readValue x n)) (eraseVariants vs).length)
      (eraseVariants vs)
  | [], _ => .nil
  | v :: vs, h => .cons (variant_trip hx v h.1) (variants_trip hx vs h.2)

theorem values_trip {x : Ext} (hx : x.Lawful) : ∀ vs, ConstsFit vs →
    Trip (writeValues x vs) (writeValues x (eraseConsts vs))
      (fun n => Reader.many (readValue x n) (eraseConsts vs).length) (eraseConsts vs)
  | [], _ => .nil
  | v :: vs, h => .cons (value_trip hx v h.1) (values_trip hx vs h.2)

end

theorem unop_trip (op : UnOp) :
    Trip (Put.u8 (unopTag op)) (Put.u8 (unopTag op)) (fun _ => Get.u8 >>= unopFromTag) op := by
  cases op <;> exact (u8_trip _).andThen fun _ => .pure

theorem binop_trip (op : BinOp) :
    Trip (Put.u8 (binopTag op)) (Put.u8 (binopTag op)) (fun _ => Get.u8 >>= binopFromTag) op := by
  cases op <;> exact (u8_trip _).andThen fun _ => .pure

theorem length_eraseElems : ∀ es, (eraseElems es).length = es.length
  | [] => rfl
  | _ :: es => congrArg (· + 1) (length_eraseElems es)

theorem length_eraseEntries : ∀ es, (eraseEntries es).length = es.length
  | [] => rfl
  | _ :: es => congrArg (· + 1) (length_eraseEntries es)

theorem length_erasePairs : ∀ es, (erasePairs es).length = es.length
  | [] => rfl
  | _ :: es => congrArg (· + 1) (length_erasePairs es)

theorem length_eraseArgs : ∀ as, (eraseArgs as).length = as.length
  | [] => rfl
  | _ :: as => congrArg (· + 1) (length_eraseArgs as)

theorem length_eraseParts : ∀ ps, (eraseParts ps).length = ps.length
  | [] => rfl
  | _ :: ps => congrArg (· + 1) (length_eraseParts ps)

mutual

theorem expr_trip : ∀ e, ExprFits e →
    Trip (writeExpr e) (writeExpr (eraseExpr e)) readExpr (eraseExpr e)
  | .mk kind span, h =>
    .succ ((span_trip span).bind ((kind_tagged kind h).trip (fun _ _ _ => rfl) fun _ => .pure))

theorem kind_tagged : ∀ k, KindFits k →
    Tagged 21 (writeKind k) (writeKind (eraseKind k)) (fun n => readExprKind (readExpr n))
      (eraseKind k)
  | .int i, _ => .tag 23 (by decide) (i64_trip i).map
  | .float f, _ => .tag 0 (by decide) (f64_trip f).map
  | .str _, h => .tag 1 (by decide) (str_trip h).map
  | .bool b, _ => .tag 2 (by decide) (flag_trip b).map
  | .nil, _ => .alone 3 (by decide) fun _ => .pure
  | .ident _, h => .tag 4 (by decide) (str_trip h).map
  | .unary op e, h => .tag 6 (by decide) ((unop_trip op).bind (expr_trip e h).map)
  | .binary op a b, h =>
    .tag 11 (by decide) ((binop_trip op).bind ((expr_trip a h.1).bind (expr_trip b h.2).map))
  | .call callee args _, h =>
    have hargs := counted_trip h.2.1 (length_eraseArgs args) (length_eraseArgs args)
      (args_trip args h.2.2)
    .tag 10 (by decide) ((expr_trip callee h.1).bind hargs.map)
  | .assign a b, h => .tag 19 (by decide) ((expr_trip a h.1).bind (expr_trip b h.2).map)
  | .arrow _, h => h.elim
  | .array es, h =>
    have hes := counted_trip h.1 (length_eraseElems es) (length_eraseElems es) (elems_trip es h.2)
    .tag 7 (by decide) hes.map
  | .index a b, h => .tag 12 (by decide) ((expr_trip a h.1).bind (expr_trip b h.2).map)
  | .object es, h =>
    have hes := counted_trip h.1 (length_eraseEntries es) (length_eraseEntries es)
      (entries_trip es h.2)
    .tag 8 (by decide) hes.map
  | .map es, h =>
    have hes := counted_trip h.1 (length_erasePairs es) (length_erasePairs es) (pairs_trip es h.2)
    .tag 22 (by decide) hes.map
  | .member e _, h => .tag 9 (by decide) ((str_trip h.1).bind (expr_trip e h.2).map)
  | .optMember e _, h => .tag 13 (by decide) ((str_trip h.1).bind (expr_trip e h.2).map)
  | .try e, h => .tag 16 (by decide) (expr_trip e h).map
  | .unwrap e, h => .tag 17 (by decide) (expr_trip e h).map
  | .ternary a b c, h =>
    .tag 14 (by decide)
      ((expr_trip a h.1).bind ((expr_trip b h.2.1).bind (expr_trip c h.2.2).map))
  | .template ps, h =>
    have hps := counted_trip h.1 (length_eraseParts ps) (length_eraseParts ps) (parts_trip ps h.2)
    .tag 15 (by decide) hps.map
  | .match _, h => h.elim
  | .await e, h => .tag 18 (by decide) (expr_trip e h).map
  | .yield _, h => h.elim
  | .paren e, h => .tag 5 (by decide) (expr_trip e h).map
  | .range a b inclusive none, h =>
    .tag 20 (by decide) ((flag_trip inclusive).bind ((expr_trip a h.1).bind
      ((expr_trip b h.2).bind ((u8_trip 0).andThen fun _ => .pure))))
  | .range a b inclusive (some step), h =>
    have hstep := (expr_trip step h.2.2).map (g := some)
    .tag 20 (by decide) ((flag_trip inclusive).bind ((expr_trip a h.1).bind
      ((expr_trip b h.2.1).bind ((u8_trip 1).bind (hstep.andThen fun _ => .pure)))))

theorem elem_trip : ∀ e, ElemFits e →
    Trip (writeElem e) (writeElem (eraseElem e)) (fun n => readElem (readExpr n)) (eraseElem e)
  | .item e, h => (u8_trip 0).bind (expr_trip e h).map
  | .spread e, h => (u8_trip 1).bind (expr_trip e h).map

theorem elems_trip : ∀ es, ElemsFit es →
    Trip (writeElems es) (writeElems (eraseElems es))
      (fun n => Reader.many (readElem (readExpr n)) (eraseElems es).length) (eraseElems es)
  | [], _ => .nil
  | e :: es, h => .cons (elem_trip e h.1) (elems_trip es h.2)

theorem entry_trip : ∀ e, EntryFits e →
    Trip (writeEntry e) (writeEntry (eraseEntry e)) (fun n => readEntry (readExpr n)) (eraseEntry e)
  | .kv _ v, h => (u8_trip 0).bind ((str_trip h.1).bind (expr_trip v h.2).map)
  | .spread e, h => (u8_trip 1).bind (expr_trip e h).map

theorem entries_trip : ∀ es, EntriesFit es →
    Trip (writeEntries es) (writeEntries (eraseEntries es))
      (fun n => Reader.many (readEntry (readExpr n)) (eraseEntries es).length) (eraseEntries es)
  | [], _ => .nil
  | e :: es, h => .cons (entry_trip e h.1) (entries_trip es h.2)

theorem pair_trip : ∀ e, PairFits e →
    Trip (writePair e) (writePair (erasePair e)) (fun n => readPair (readExpr n)) (erasePair e)
  | .mk key value, h => (expr_trip key h.1).bind (expr_trip value h.2).map

theorem pairs_trip : ∀ es, PairsFit es →
    Trip (writePairs es) (writePairs (erasePairs es))
      (fun n => Reader.many (readPair (readExpr n)) (erasePairs es).length) (erasePairs es)
  | [], _ => .nil
  | e :: es, h => .cons (pair_trip e h.1) (pairs_trip es h.2)

theorem arg_trip : ∀ a, ArgFits a →
    Trip (writeArg a) (writeArg (eraseArg a)) (fun n => readArg (readExpr n)) (eraseArg a)
  | .pos e, h => (u8_trip 0).bind (expr_trip e h).map
  | .spread e, h => (u8_trip 1).bind (expr_trip e h).map
  | .named _ e, h => (u8_trip 2).bind ((str_trip h.1).bind (expr_trip e h.2).map)

theorem args_trip : ∀ as, ArgsFit as →
    Trip (writeArgs as) (writeArgs (eraseArgs as))
      (fun n => Reader.many (readArg (readExpr n)) (eraseArgs as).length) (eraseArgs as)
  | [], _ => .nil
  | a :: as, h => .cons (arg_trip a h.1) (args_trip as h.2)

theorem part_trip : ∀ p, PartFits p →
    Trip (writePart p) (writePart (erasePart p)) (fun n => readPart (readExpr n)) (erasePart p)
  | .lit _, h => (u8_trip 0).bind (str_trip h).map
  | .expr e, h => (u8_trip 1).bind (expr_trip e h).map

theorem parts_trip : ∀ ps, PartsFit ps →
    Trip (writeParts ps) (writeParts (eraseParts ps))
      (fun n => Reader.many (readPart (readExpr n)) (eraseParts ps).length) (eraseParts ps)
  | [], _ => .nil
  | p :: ps, h => .cons (part_trip p h.1) (parts_trip ps h.2)

end

section Classes

variable {x : Ext}

theorem default_trip (h : DefaultFits x source e) :
    Trip (writeFieldDefault source e) (writeFieldDefault source (eraseDefault source e))
      (readFieldDefault x) (eraseDefault source e, source) := by
  cases source with
  | some src =>
    refine (span_trip (exprSpan e)).bind ((u8_trip 21).bind ((str_trip h.1).andThen fun _ => ?_))
    rw [h.2]
    exact .pure
  | none =>
    obtain ⟨kind, span⟩ := e
    refine (span_trip span).bind ((kind_tagged kind h).trip (fun n tag ht => if_neg ht) fun _ => ?_)
    exact .pure

theorem fieldSchema_trip (h : FieldSchemaFits x sources f)
    (hsame : f.2.default.isSome → sourceOf sources' f.1 = sourceOf sources f.1) :
    Trip (writeFieldSchema sources f) (writeFieldSchema sources' (eraseFieldSchema sources f))
      (readFieldSchema x)
      (f.1, (eraseFieldSchema sources f).2, f.2.default.bind fun _ => sourceOf sources f.1) := by
  obtain ⟨name, ty, default⟩ := f
  have hone : ∀ e ∈ default, Trip (writeFieldDefault (sourceOf sources name) e)
      (writeFieldDefault (sourceOf sources' name) (eraseDefault (sourceOf sources name) e))
      (readFieldDefault x) (eraseDefault (sourceOf sources name) e, sourceOf sources name) := by
    intro e he
    rw [hsame (Option.isSome_iff_exists.mpr ⟨e, he⟩)]
    exact default_trip (h.2.2 e he)
  have hdefault := opt_trip "field-default" default hone
  refine (str_trip h.1).bind ((type_trip ty h.2.1).bind (hdefault.andThen fun _ => ?_))
  cases default <;> exact .pure

theorem mem_keptSources {p : String × String} (h : p ∈ keptSources sources fields) :
    sourceOf sources p.1 = some p.2 := by
  obtain ⟨f, -, hf⟩ := List.mem_filterMap.mp h
  obtain ⟨e, -, he⟩ := Option.bind_eq_some_iff.mp hf
  obtain ⟨src, hs, rfl⟩ := Option.map_eq_some_iff.mp he
  exact hs

theorem sourceOf_keptSources {f : String × FieldSchema} (hf : f ∈ fields)
    (hd : f.2.default.isSome) :
    sourceOf (keptSources sources fields) f.1 = sourceOf sources f.1 := by
  obtain ⟨e, he⟩ := Option.isSome_iff_exists.mp hd
  cases hs : sourceOf sources f.1 with
  | some src =>
    have hmem : (f.1, src) ∈ keptSources sources fields :=
      List.mem_filterMap.mpr ⟨f, hf, by rw [he, hs]; rfl⟩
    have hfound : ((keptSources sources fields).reverse.find? (·.1 == f.1)).isSome :=
      List.find?_isSome.mpr ⟨_, List.mem_reverse.mpr hmem, beq_self_eq_true f.1⟩
    obtain ⟨p, hp⟩ := Option.isSome_iff_exists.mp hfound
    have hname : p.1 = f.1 := by simpa using List.find?_some hp
    have hsrc := mem_keptSources (List.mem_reverse.mp (List.mem_of_find?_eq_some hp))
    rw [hname, hs] at hsrc
    rw [sourceOf, hp, Option.map_some, Option.some_inj.mp hsrc]
  | none =>
    rw [sourceOf, Option.map_eq_none_iff, List.find?_eq_none]
    intro p hp hname
    have hsrc := mem_keptSources (List.mem_reverse.mp hp)
    rw [eq_of_beq hname, hs] at hsrc
    cases hsrc

theorem class_trip {c : Class} (hname : Short c.name) (hfew : Few c.fields.entries)
    (h : ∀ f ∈ c.fields.entries, FieldSchemaFits x sources f) :
    Trip (writeClass sources c)
      (writeClass (keptSources sources c.fields.entries) (eraseClass sources c)) (readClass x)
      (eraseClass sources c, keptSources sources c.fields.entries) := by
  have hfields := list_trip (f := eraseFieldSchema sources) hfew fun f hf =>
    fieldSchema_trip (h f hf) (sourceOf_keptSources hf)
  refine (str_trip hname).bind ((flag_trip c.isWorker).bind (hfields.andThen fun _ => ?_))
  rw [List.map_map, List.filterMap_map]
  have hentries : IndexMap.ofPairs (c.fields.entries.map (eraseFieldSchema sources)) =
      (eraseClass sources c).fields := IndexMap.ofPairs_entries (eraseClass sources c).fields
  have hkept : c.fields.entries.filterMap (fun f =>
        (f.2.default.bind fun _ => sourceOf sources f.1).map (f.1, ·)) =
      keptSources sources c.fields.entries := by
    refine List.filterMap_congr fun f _ => ?_
    cases f.2.default <;> rfl
  have hread : (⟨c.name, c.isWorker, .ofPairs (c.fields.entries.map (eraseFieldSchema sources))⟩,
      c.fields.entries.filterMap fun f =>
        (f.2.default.bind fun _ => sourceOf sources f.1).map (f.1, ·)) =
      (eraseClass sources c, keptSources sources c.fields.entries) := by
    rw [hentries, hkept]
    rfl
  rw [← hread]
  exact .pure

theorem capture_trip (h : Short c.1) :
    Trip (writeCapture c) (writeCapture c) (fun _ => readCapture) c :=
  (str_trip h).bind (u16_trip c.2).map

theorem classProto_trip (h : ClassProtoFits x cp) :
    Trip (writeClassProto cp) (writeClassProto (eraseClassProto cp)) (readClassProto x)
      (eraseClassProto cp) := by
  refine (class_trip h.name h.fields.1 h.fields.2).bind ?_
  refine (list_self_trip h.defaultFields.1 fun _ hs => str_trip (h.defaultFields.2 _ hs)).bind ?_
  refine (list_self_trip h.methodNames.1 fun _ hs => str_trip (h.methodNames.2 _ hs)).bind ?_
  refine (list_self_trip h.staticMethodNames.1
    fun _ hs => str_trip (h.staticMethodNames.2 _ hs)).bind ?_
  refine (list_self_trip h.defaultCaptures.1 fun cs hcs =>
    list_self_trip (h.defaultCaptures.2 cs hcs).1
      fun c hc => capture_trip ((h.defaultCaptures.2 cs hcs).2 c hc)).bind ?_
  exact (flag_trip cp.hasSuper).andThen fun _ => .pure

end Classes

theorem method_trip (h : Short m.1) : Trip (writeMethod m) (writeMethod m)
    (fun _ => readMethod) m :=
  (str_trip h).bind ((u64_trip m.2.1).bind (flag_trip m.2.2).map)

theorem interfaceProto_trip (h : InterfaceProtoFits ip) :
    Trip (writeInterfaceProto ip) (writeInterfaceProto ip) (fun _ => readInterfaceProto) ip := by
  refine (str_trip h.name).bind ?_
  refine (list_self_trip h.methods.1 fun m hm => method_trip (h.methods.2 m hm)).bind ?_
  exact (list_self_trip h.parents.1 fun _ hs => str_trip (h.parents.2 _ hs)).map

theorem importName_trip {n : ImportName} (h : Short n.name) :
    Trip (writeImportName n) (writeImportName n) (fun _ => readImportName) n :=
  (str_trip h).bind ((u16_trip n.slot).bind ((flag_trip n.isCell).bind (flag_trip n.isGlobal).map))

theorem import_trip : ∀ i, ImportFits i →
    Trip (writeImport i) (writeImport i) (fun _ => readImport) i
  | .named _ _, h =>
    have hnames := list_self_trip h.2.1 fun n hn => importName_trip (h.2.2 n hn)
    (u8_trip 0).bind ((str_trip h.1).bind hnames.map)
  | .namespace _ _, h => (u8_trip 1).bind ((str_trip h.1).bind (importName_trip h.2).map)

theorem upvalue_trip : ∀ u, Trip (writeUpvalue u) (writeUpvalue u) (fun _ => readUpvalue) u
  | .parentLocal slot byValue => (u8_trip 0).bind ((u32_trip slot).bind (flag_trip byValue).map)
  | .parentUpvalue i => (u8_trip 1).bind (u32_trip i).map

theorem param_trip {p : Param} (h : ParamFits p) :
    Trip (writeParam p) (writeParam (eraseParam p)) readParam (eraseParam p) := by
  obtain ⟨name, ty, nameSpan, rest, default⟩ := p
  have hty := opt_trip (f := eraseType) "opt-type" ty fun t ht => type_trip t (h.2 t ht)
  refine (str_trip h.1).bind (hty.bind ((span_trip nameSpan).bind ((flag_trip rest).bind ?_)))
  cases default with
  | none => exact (flag_trip false).andThen fun _ => .pure
  | some e => exact (flag_trip true).andThen fun _ => .pure

theorem spanEntry_trip (s : UInt64 × Span) :
    Trip (writeSpan s) (writeSpan s) (fun _ => readSpan) s :=
  (u64_trip s.1).bind (span_trip s.2).map

theorem local_trip (h : Short l.2) : Trip (writeLocal l) (writeLocal l) (fun _ => readLocal) l :=
  (u32_trip l.1).bind (str_trip h).map

theorem source_trip (h : Short s.path ∧ Short s.text) :
    Trip (writeSource s) (writeSource s) (fun _ => readSource) s :=
  (str_trip h.1).bind (str_trip h.2).map

theorem bit_flags (s : Signature) :
    bit (flags s) 0 = s.hasRest ∧ bit (flags s) 1 = s.isAsync ∧ bit (flags s) 2 = s.isGenerator ∧
      bit (flags s) 3 = s.isWorker ∧ bit (flags s) 4 = s.owningClass.isSome := by
  unfold flags
  generalize s.hasRest = a, s.isAsync = b, s.isGenerator = c, s.isWorker = d,
    s.owningClass.isSome = e
  revert a b c d e
  decide

theorem head_trip {s : Signature} (h : SignatureFits withDebug s) :
    Trip (writeHead s) (writeHead (eraseSignature withDebug s)) readHead
      { eraseSignature withDebug s with localNames := [], debugName := none } := by
  have hparams := list_trip (f := eraseParam) h.params.1 fun p hp => param_trip (h.params.2 p hp)
  have hret := opt_trip (f := eraseType) "opt-type" s.ret fun t ht => type_trip t (h.ret t ht)
  obtain ⟨hrest, hasync, hgen, hworker, hclass⟩ := bit_flags s
  refine (u8_trip s.arity).bind ((u8_trip (flags s)).bind (hparams.bind (hret.bind ?_)))
  simp only [eraseSignature, hrest, hasync, hgen, hworker, hclass]
  cases hown : s.owningClass with
  | none => exact .pure _
  | some cls => exact (str_trip (h.owningClass cls hown)).map.andThen fun _ => .pure

theorem debug_trip {s : Signature} (h : SignatureFits withDebug s) :
    Trip (writeDebug withDebug s) (writeDebug withDebug (eraseSignature withDebug s))
      (fun _ => readDebug withDebug)
      ((eraseSignature withDebug s).localNames, (eraseSignature withDebug s).debugName) := by
  cases withDebug with
  | false => exact .pure _
  | true =>
    have hlocals := list_self_trip (h.localNames rfl).1 fun l hl =>
      local_trip ((h.localNames rfl).2 l hl)
    have hname := opt_trip (f := id) "opt-string" s.debugName fun n hn =>
      str_trip (h.debugName rfl n hn)
    rw [Option.map_id] at hname
    exact hlocals.bind hname.map

theorem tables_trip {x : Ext} (hx : x.Lawful) (h : TablesFit x t)
    {protos protos' : Put} {get : Nat → Get (List FnProto)} (hp : Trip protos protos' get ps) :
    Trip (writeTables x t protos) (writeTables x (eraseTables source t) protos')
      (fun n => readTables x n (get n)) ⟨eraseTables none t, ps⟩ := by
  refine (bytes_trip h.code).bind ?_
  refine (list_trip h.consts.1 fun v hv => value_trip hx v (h.consts.2 v hv)).bind (hp.bind ?_)
  refine (list_trip h.classProtos.1 fun cp hc => classProto_trip (h.classProtos.2 cp hc)).bind ?_
  refine (list_self_trip h.interfaceProtos.1
    fun ip hi => interfaceProto_trip (h.interfaceProtos.2 ip hi)).bind ?_
  refine (list_self_trip h.imports.1 fun i hi => import_trip i (h.imports.2 i hi)).bind ?_
  refine (list_trip h.typeConsts.1 fun ty ht => type_trip ty (h.typeConsts.2 ty ht)).bind ?_
  refine (list_self_trip h.spans fun s _ => spanEntry_trip s).bind ?_
  refine (list_self_trip h.upvalues fun u _ => upvalue_trip u).bind ?_
  refine (list_self_trip h.cellSlots fun n _ => u32_trip n).bind ?_
  refine (u16_trip t.slotCount).bind ((u16_trip t.icCount).bind ?_)
  have hname := opt_trip (f := id) "opt-string" t.name fun n hn => str_trip (h.name n hn)
  rw [Option.map_id] at hname
  exact hname.map

theorem length_eraseProtos : ∀ ps, (eraseProtos withDebug source ps).length = ps.length
  | [] => rfl
  | _ :: ps => congrArg (· + 1) (length_eraseProtos ps)

mutual

theorem proto_trip {x : Ext} (hx : x.Lawful) : ∀ p, ProtoFits x withDebug p →
    Trip (writeProto x withDebug p) (writeProto x withDebug (eraseProto withDebug source p))
      (readProto x withDebug) (eraseProto withDebug none p)
  | .mk _ _ ps, ⟨hs, ht, hfew, hps⟩ =>
    have hprotos := counted_trip hfew (length_eraseProtos ps) (length_eraseProtos ps)
      (protos_trip hx ps hps)
    .succ ((head_trip hs).bind ((tables_trip hx ht hprotos).bind (debug_trip hs).map))

theorem protos_trip {x : Ext} (hx : x.Lawful) : ∀ ps, ProtosFit x withDebug ps →
    Trip (writeProtos x withDebug ps) (writeProtos x withDebug (eraseProtos withDebug source ps))
      (fun n => Reader.many (readProto x withDebug n) (eraseProtos withDebug none ps).length)
      (eraseProtos withDebug none ps)
  | [], _ => .nil
  | p :: ps, h => .cons (proto_trip hx p h.1) (protos_trip hx ps h.2)

end

mutual

theorem protoSetSource_erase (src : SourceInfo) : ∀ p,
    protoSetSource src (eraseProto withDebug none p) = eraseProto withDebug (some src) p
  | .mk s t ps => congrArg (FnProto.mk (eraseSignature withDebug s) (eraseTables (some src) t))
      (protosSetSource_erase src ps)

theorem protosSetSource_erase (src : SourceInfo) : ∀ ps,
    protosSetSource src (eraseProtos withDebug none ps) = eraseProtos withDebug (some src) ps
  | [] => rfl
  | p :: ps => congrArg₂ List.cons (protoSetSource_erase src p) (protosSetSource_erase src ps)

end

theorem chunk_trip {x : Ext} {c : Chunk} (hx : x.Lawful) (h : Fits x withDebug c) :
    Trip (writeChunk x withDebug c) (writeChunk x withDebug (erase withDebug c))
      (readChunk x withDebug)
      ⟨eraseTables none c.toTables, eraseProtos withDebug none c.protos⟩ :=
  tables_trip hx h.tables (counted_trip h.protos.1 (length_eraseProtos c.protos)
    (length_eraseProtos c.protos) (protos_trip hx c.protos h.protos.2))

theorem magic_trip : Trip (Writer.put magic : Put) (Writer.put magic)
    (fun _ => Reader.take .truncated magic.length) magic :=
  ⟨0, magic, .put _, .put _, fun _ _ => .take⟩

theorem version_trip : Trip (Writer.word 4 formatVersion : Put) (Writer.word 4 formatVersion)
    (fun _ => Reader.word .truncated 4) formatVersion :=
  .word (by decide)

theorem setModuleSource_erase (src : SourceInfo) (c : Chunk) :
    setModuleSource src ⟨eraseTables none c.toTables, eraseProtos withDebug none c.protos⟩ =
      ⟨eraseTables (some src) c.toTables, eraseProtos withDebug (some src) c.protos⟩ :=
  congrArg (Chunk.mk (eraseTables (some src) c.toTables)) (protosSetSource_erase src c.protos)

theorem module_trip {x : Ext} {c : Chunk} (hx : x.Lawful) (h : Fits x withDebug c) :
    Trip (writeModule x withDebug c) (writeModule x withDebug (erase withDebug c)) (readModule x)
      (erase withDebug c) := by
  refine magic_trip.bind ?_
  simp only [ne_eq, not_true_eq_false, if_false, pure_bind]
  refine version_trip.bind ?_
  simp only [not_true_eq_false, if_false]
  refine (flag_trip withDebug).bind ?_
  cases withDebug with
  | false =>
    exact (chunk_trip hx h).andThen fun _ => .pure
  | true =>
    have hsource := optFlag_trip c.source fun s hs => source_trip (h.source rfl s hs)
    refine hsource.bind ?_
    refine (chunk_trip hx h).andThen fun _ => ?_
    have herase : erase true c =
        ⟨eraseTables c.source c.toTables, eraseProtos true c.source c.protos⟩ := rfl
    rw [herase]
    cases c.source with
    | none => exact .pure
    | some src =>
      rw [← setModuleSource_erase]
      exact .pure

/-- A module that can be written is read back, but for what is erased, and is then written to the
same bytes again. -/
theorem fromBytes_toBytesWithDebug {x : Ext} (hx : x.Lawful) (h : Fits x withDebug c) :
    ∃ bytes, toBytesWithDebug x c withDebug = .ok bytes ∧
      (∃ n, ∀ fuel ≥ n, fromBytes x fuel bytes = .ok (erase withDebug c)) ∧
      toBytesWithDebug x (erase withDebug c) withDebug = .ok bytes := by
  obtain ⟨n, bytes, hw, hw', hr⟩ := module_trip hx h
  have hwrite := hw []
  have hwrite' := hw' []
  rw [List.nil_append] at hwrite hwrite'
  refine ⟨bytes, ?_, ⟨n, fun fuel hle => ?_⟩, ?_⟩
  · rw [toBytesWithDebug, hwrite]
  · have hread := hr fuel hle []
    rw [List.append_nil] at hread
    rw [fromBytes, hread]
  · rw [toBytesWithDebug, hwrite']

/-- Decimals as sign, scale and mantissa words; no default is lowered from text. -/
def plain : Ext where
  serialize d := [0, 0, UInt8.ofNat d.scale.val, 128 * d.negative.toUInt8] ++
    (le 4 d.lo.toNat ++ (le 4 d.mid.toNat ++ le 4 d.hi.toNat))
  deserialize bs :=
    { lo := UInt32.ofNat (ofLe ((bs.drop 4).take 4))
      mid := UInt32.ofNat (ofLe ((bs.drop 8).take 4))
      hi := UInt32.ofNat (ofLe ((bs.drop 12).take 4))
      scale := Fin.ofNat 29 ((bs[2]?).getD 0).toNat
      negative := (bs[3]?).getD 0 != 0 }
  reparse _ := none

theorem plain_lawful : plain.Lawful where
  length_serialize d := by simp [plain]
  deserialize_serialize d := by
    obtain ⟨lo, mid, hi, scale, negative⟩ := d
    have hscale : scale.val % 256 % 29 = scale.val := by omega
    have hlo := ofLe_le (k := 4) lo.toNat_lt
    have hmid := ofLe_le (k := 4) mid.toNat_lt
    have hhi := ofLe_le (k := 4) hi.toNat_lt
    have hsign : (128 * negative.toUInt8 != 0) = negative := by cases negative <;> decide
    simp [plain, Fin.ext_iff, hscale, hsign, hlo, hmid, hhi, List.drop_append,
      List.take_of_length_le, List.drop_eq_nil_of_le]

/-- A module with a source whose one function has none. -/
def sourced : Chunk :=
  { Chunk.new with
    consts := [.decimal ⟨15, 0, 0, 1, false⟩, .str "hi"]
    typeConsts := [.array (.param "T")]
    source := some ⟨"main.as", "fn f(n = 1) \x7b\x7d"⟩
    protos := [.mk ⟨0, false, false, false, false, none,
      [⟨"n", none, ⟨5, 6⟩, false, some (.mk (.int (I64.wrap 1)) ⟨9, 10⟩)⟩], none, [(0, "n")],
      some "f", some ⟨3, 4⟩⟩ Chunk.new.toTables []] }

theorem new_fits (x : Ext) : TablesFit x Chunk.new.toTables where
  code := by decide
  consts := ⟨by decide, nofun⟩
  classProtos := ⟨by decide, nofun⟩
  interfaceProtos := ⟨by decide, nofun⟩
  imports := ⟨by decide, nofun⟩
  typeConsts := ⟨by decide, nofun⟩
  spans := by decide
  upvalues := by decide
  cellSlots := by decide
  name := nofun

theorem sourced_fits : Fits plain true sourced where
  tables :=
    { new_fits plain with
      consts := ⟨by decide, by simp [sourced, ConstFits]; decide +kernel⟩
      typeConsts := ⟨by decide, by simp [sourced, TypeFits]⟩ }
  protos :=
    have hs : SignatureFits true ⟨0, false, false, false, false, none,
        [⟨"n", none, ⟨5, 6⟩, false, some (.mk (.int (I64.wrap 1)) ⟨9, 10⟩)⟩], none, [(0, "n")],
        some "f", some ⟨3, 4⟩⟩ :=
      { params := ⟨by decide, by simp [ParamFits]; decide +kernel⟩
        ret := nofun
        owningClass := nofun
        localNames := fun _ => ⟨by decide, by simp; decide +kernel⟩
        debugName := fun _ => by simp; decide +kernel }
    ⟨by decide, ⟨hs, new_fits plain, by decide, trivial⟩, trivial⟩
  source _ s hs := by
    cases hs
    exact ⟨by decide +kernel, by decide +kernel⟩

theorem fromBytes_toBytesWithDebug_sourced : Fits plain true sourced ∧
    ∃ bytes, toBytesWithDebug plain sourced true = .ok bytes ∧
      (∃ n, ∀ fuel ≥ n, fromBytes plain fuel bytes = .ok (erase true sourced)) ∧
      toBytesWithDebug plain (erase true sourced) true = .ok bytes :=
  ⟨sourced_fits, fromBytes_toBytesWithDebug plain_lawful sourced_fits⟩

/-- The function that had no source comes back with the module's. -/
theorem nested_source_not_kept :
    sourced.protos.map (·.chunk.source) = [none] ∧
      ((toBytesWithDebug plain sourced true).toOption.bind fun bytes =>
        (fromBytes plain 3 bytes).toOption).map (fun c => c.protos.map (·.chunk.source)) =
      some [sourced.source] := by
  decide +kernel

end AScript.Bytecode.Aso
