import AScript.Trace.Container

namespace AScript.Trace

open AScript.Lib AScript.Det

theorem putCount_eq (h : n < 2 ^ 32) : putCount n = le 4 n :=
  congrArg (le 4) (Nat.min_eq_left (Nat.le_pred_of_lt h))

theorem putField_eq (h : bs.length < 2 ^ 32) : putField bs = putBytes bs :=
  congrArg (· ++ bs) (putCount_eq h)

theorem putText_eq (h : (utf8 s).length < 2 ^ 32) : putText s = putStr s := putField_eq h

@[simp] theorem length_putCount (n : Nat) : (putCount n).length = 4 := length_le 4 _

@[simp] theorem length_putField (bs : List UInt8) : (putField bs).length = 4 + bs.length := by
  rw [putField, List.length_append, length_putCount]

@[simp] theorem length_putText (s : String) : (putText s).length = 4 + (utf8 s).length :=
  length_putField _

@[simp] theorem length_putU64 (n : UInt64) : (putU64 n).length = 8 := length_le 8 _

@[simp] theorem length_putU32 (n : UInt32) : (putU32 n).length = 4 := length_le 4 _

section Fields

variable {cur : Option Nat}

theorem word_takes (cur : Option Nat) (k : Nat) (h : n < 256 ^ k) (g : Nat → α) :
    Takes (do return g (← word cur k)) (le k n) (g n) :=
  (Takes.word h).map

theorem word_parses (k : Nat) {g : Nat → α} {put : α → List UInt8}
    (h : ∀ n < 256 ^ k, put (g n) = le k n) :
    Parses (do return g (← word cur k)) fun a bs => bs = put a := by
  refine Parses.word.bind ?_
  rintro n _ ⟨rfl, hn⟩
  exact .pure (by rw [List.append_nil, h n hn])

theorem u8_takes (b : UInt8) : Takes (u8 cur) [b] b := by
  have h := word_takes cur 1 b.toNat_lt UInt8.ofNat
  rwa [UInt8.ofNat_toNat, le, UInt8.ofNat_toNat] at h

theorem u8_parses : Parses (u8 cur) fun b bs => bs = [b] :=
  word_parses 1 fun _ _ => rfl

theorem u32_takes (n : UInt32) : Takes (u32 cur) (putU32 n) n := by
  have h := word_takes cur 4 n.toNat_lt UInt32.ofNat
  rwa [UInt32.ofNat_toNat] at h

theorem u32_parses : Parses (u32 cur) fun n bs => bs = putU32 n :=
  word_parses 4 fun _ hn => congrArg (le 4) (UInt32.toNat_ofNat_of_lt hn)

theorem u64_takes (n : UInt64) : Takes (u64 cur) (putU64 n) n := by
  have h := word_takes cur 8 n.toNat_lt UInt64.ofNat
  rwa [UInt64.ofNat_toNat] at h

theorem u64_parses : Parses (u64 cur) fun n bs => bs = putU64 n :=
  word_parses 8 fun _ hn => congrArg (le 8) (UInt64.toNat_ofNat_of_lt hn)

theorem f64_takes (f : F64) : Takes (f64 cur) (putF64 f) f := by
  have h := word_takes cur 8 f.bits.isLt (fun n => (⟨BitVec.ofNat 64 n⟩ : F64))
  rwa [BitVec.ofNat_toNat, BitVec.setWidth_eq] at h

theorem f64_parses : Parses (f64 cur) fun f bs => bs = putF64 f := by
  refine word_parses 8 fun n hn => congrArg (le 8) ?_
  rw [BitVec.toNat_ofNat]
  exact Nat.mod_eq_of_lt hn

theorem i64_takes (i : I64) : Takes (i64 cur) (le 8 (i.val % 2 ^ 64).toNat) i := by
  have hnonneg : 0 ≤ i.val % 2 ^ 64 := Int.emod_nonneg _ (by decide)
  have hlt : (i.val % 2 ^ 64).toNat < 256 ^ 8 := by
    have := Int.emod_lt_of_pos i.val (show (0 : Int) < 2 ^ 64 by decide)
    omega
  have h := word_takes cur 8 hlt (fun n => I64.wrap n)
  rwa [Int.toNat_of_nonneg hnonneg, I64.wrap_val] at h

theorem toNat_wrap {n : Nat} (h : n < 2 ^ 64) : ((I64.wrap n).val % 2 ^ 64).toNat = n := by
  have hmod : (n : Int).bmod (2 ^ 64) % 2 ^ 64 = n := by
    rw [Int.bmod_def]
    omega
  rw [I64.val_wrap, hmod, Int.toNat_natCast]

theorem i64_parses : Parses (i64 cur) fun i bs => bs = le 8 (i.val % 2 ^ 64).toNat :=
  word_parses 8 fun _ hn => congrArg (le 8) (toNat_wrap hn)

theorem bytes_takes (h : bs.length < 2 ^ 32) : Takes (bytes cur) (putField bs) bs := by
  rw [putField_eq h]
  exact .bytes h

theorem bytes_parses : Parses (bytes cur) fun a bs => bs = putField a := by
  refine Parses.bytes.mono ?_
  rintro a _ ⟨rfl, ha⟩
  exact (putField_eq ha).symm

theorem str_takes (h : (utf8 s).length < 2 ^ 32) : Takes (str cur) (putText s) s := by
  rw [putText_eq h]
  exact .str h

theorem str_parses : Parses (str cur) fun s bs => bs = putText s := by
  refine Parses.str.mono ?_
  rintro s _ ⟨rfl, hs⟩
  exact (putText_eq hs).symm

theorem opt_takes {put : α → List UInt8} {get : Get α} (what : String) (o : Option α)
    (h : ∀ a ∈ o, Takes get (put a) a) : Takes (opt cur what get) (putOpt put o) o := by
  cases o with
  | none => exact (u8_takes 0).andThen (.pure none)
  | some a => exact (u8_takes 1).bind (h a rfl).map

theorem optStr_takes {o : Option String} (h : (putOpt putText o).length < 2 ^ 32) :
    Takes (optStr cur) (putOpt putText o) o := by
  refine opt_takes "opt-string" o fun s hs => str_takes ?_
  cases hs
  simp only [putOpt, List.length_cons, length_putText] at h
  omega

theorem optBytes_takes {o : Option Bytes} (h : (putOpt putField o).length < 2 ^ 32) :
    Takes (optBytes cur) (putOpt putField o) o := by
  refine opt_takes "opt-bytes" o fun s hs => bytes_takes ?_
  cases hs
  simp only [putOpt, List.length_cons, length_putField] at h
  omega

theorem opt_parses {put : α → List UInt8} {get : Get α} (what : String)
    (h : Parses get fun a bs => bs = put a) :
    Parses (opt cur what get) fun o bs => bs = putOpt put o := by
  refine u8_parses.bind ?_
  rintro tag _ rfl
  split
  next h0 =>
    rw [show tag = 0 from UInt8.toNat_inj.mp h0]
    exact .pure rfl
  next h1 =>
    rw [show tag = 1 from UInt8.toNat_inj.mp h1]
    refine h.bind ?_
    rintro a _ rfl
    exact .pure (congrArg (1 :: ·) (List.append_nil _))
  next => exact .throw _

theorem outcome_takes (o : TraceOutcome) (h : (putOutcome o).length < 2 ^ 32) :
    Takes (readOutcome cur) (putOutcome o) o := by
  cases o <;> simp only [putOutcome, List.length_cons, List.length_append, length_putField,
    length_putText, length_putU32] at h
  case value b => exact (u8_takes 0).bind (bytes_takes (by omega)).map
  case panic s => exact (u8_takes 1).bind (str_takes (by omega)).map
  case propagate b => exact (u8_takes 2).bind (bytes_takes (by omega)).map
  case handle kindTag vid fields =>
    exact (u8_takes 3).bind ((u8_takes kindTag).bind ((u32_takes vid).bind
      (bytes_takes (by omega)).map))

theorem outcome_parses : Parses (readOutcome cur) fun o bs => bs = putOutcome o := by
  refine u8_parses.bind ?_
  rintro tag _ rfl
  split
  next h =>
    rw [show tag = 0 from UInt8.toNat_inj.mp h]
    refine bytes_parses.bind ?_
    rintro b _ rfl
    exact .pure (congrArg (0 :: ·) (List.append_nil _))
  next h =>
    rw [show tag = 1 from UInt8.toNat_inj.mp h]
    refine str_parses.bind ?_
    rintro s _ rfl
    exact .pure (congrArg (1 :: ·) (List.append_nil _))
  next h =>
    rw [show tag = 2 from UInt8.toNat_inj.mp h]
    refine bytes_parses.bind ?_
    rintro b _ rfl
    exact .pure (congrArg (2 :: ·) (List.append_nil _))
  next h =>
    rw [show tag = 3 from UInt8.toNat_inj.mp h]
    refine u8_parses.bind ?_
    rintro kindTag _ rfl
    refine u32_parses.bind ?_
    rintro vid _ rfl
    refine bytes_parses.bind ?_
    rintro fields _ rfl
    exact .pure (by simp [putOutcome])
  next => exact .throw _

theorem ffiRet_takes (r : FfiRet) : Takes (readFfiRet cur) (putFfiRet r) r := by
  cases r with
  | int i => exact (u8_takes 0).bind (i64_takes i).map
  | float f => exact (u8_takes 1).bind (f64_takes f).map
  | void => exact (u8_takes 2).andThen (.pure _)

theorem ffiRet_parses : Parses (readFfiRet cur) fun r bs => bs = putFfiRet r := by
  refine u8_parses.bind ?_
  rintro tag _ rfl
  split
  next h =>
    rw [show tag = 0 from UInt8.toNat_inj.mp h]
    refine i64_parses.bind ?_
    rintro i _ rfl
    exact .pure (congrArg (0 :: ·) (List.append_nil _))
  next h =>
    rw [show tag = 1 from UInt8.toNat_inj.mp h]
    refine f64_parses.bind ?_
    rintro f _ rfl
    exact .pure (congrArg (1 :: ·) (List.append_nil _))
  next h =>
    rw [show tag = 2 from UInt8.toNat_inj.mp h]
    exact .pure rfl
  next => exact .throw _

theorem outParam_takes (p : UInt64 × Bytes) (h : (putOutParam p).length < 2 ^ 32) :
    Takes (readOutParam cur) (putOutParam p) p := by
  rw [putOutParam, List.length_append, length_putU64, length_putField] at h
  exact (u64_takes p.1).bind (bytes_takes (by omega)).map

theorem outParam_parses : Parses (readOutParam cur) fun p bs => bs = putOutParam p := by
  refine u64_parses.bind ?_
  rintro idx _ rfl
  refine bytes_parses.bind ?_
  rintro b _ rfl
  exact .pure (by simp [putOutParam])

theorem list_takes {put : α → List UInt8} {get : Get α} {as : List α}
    (hpos : ∀ a, 0 < (put a).length) (h : (putList put as).length < 2 ^ 32)
    (hget : ∀ a, (put a).length < 2 ^ 32 → Takes get (put a) a) :
    Takes (list cur get) (putList put as) as := by
  rw [putList, List.length_append, length_putCount] at h
  have hlen : as.length ≤ (as.flatMap put).length := by
    rw [List.length_flatMap]
    clear h
    induction as with
    | nil => exact Nat.le_refl 0
    | cons a as ih =>
      have := hpos a
      simp only [List.map_cons, List.sum_cons, List.length_cons]
      omega
  have hmem : ∀ a ∈ as, (put a).length < 2 ^ 32 := by
    intro a ha
    have hle : (put a).length ≤ (as.flatMap put).length := by
      rw [List.length_flatMap]
      exact List.le_sum_of_mem (List.mem_map_of_mem ha)
    omega
  rw [putList, putCount_eq (by omega)]
  exact (Takes.word (by omega)).bind (Takes.many fun a ha => hget a (hmem a ha))

theorem list_parses {put : α → List UInt8} {get : Get α}
    (h : Parses get fun a bs => bs = put a) :
    Parses (list cur get) fun as bs => bs = putList put as := by
  refine Parses.word.bind ?_
  rintro n _ ⟨rfl, hn⟩
  have hg : Parses get fun a bs => bs = put a ∧ True := h.mono fun _ _ hb => ⟨hb, trivial⟩
  refine (Parses.many hg n).mono ?_
  rintro as _ ⟨rfl, rfl, -⟩
  rw [putList, putCount_eq (by simpa using hn)]

end Fields

theorem event_takes (ev : Event) (cur : Nat) (h : (encodeEvent ev).length < 2 ^ 32) :
    Takes (readEvent (recordKind ev) cur) (encodeEvent ev) ev := by
  cases ev <;> simp only [encodeEvent, List.length_append, length_putField, length_putText,
    length_putU32, length_putU64] at h
  case clockRead value => exact (f64_takes value).map
  case randomRead value => exact (f64_takes value).map
  case bytesRead b => exact (bytes_takes (by omega)).map
  case monotonicRead value => exact (f64_takes value).map
  case timerSet wake => exact (f64_takes wake).map
  case activityCompleted name argsHash resultJson =>
    exact (str_takes (by omega)).bind ((u64_takes argsHash).bind (str_takes (by omega)).map)
  case actorCall method result panic =>
    exact (str_takes (by omega)).bind ((bytes_takes (by omega)).bind (optStr_takes (by omega)).map)
  case ffiCall ret outParams =>
    have hpos : ∀ p, 0 < (putOutParam p).length := by simp [putOutParam]
    exact (ffiRet_takes ret).bind (list_takes hpos (by omega) outParam_takes).map
  case generatorYield value panic =>
    exact (optBytes_takes (by omega)).bind (optStr_takes (by omega)).map
  case stdlibCall mod func argsHash outcome =>
    exact (str_takes (by omega)).bind ((str_takes (by omega)).bind ((u64_takes argsHash).bind
      (outcome_takes outcome (by omega)).map))
  case nativeCall vid method argsHash outcome =>
    exact (u32_takes vid).bind ((str_takes (by omega)).bind ((u64_takes argsHash).bind
      (outcome_takes outcome (by omega)).map))

theorem field_parses {get : Get α} {put : α → List UInt8} (mk : α → Event)
    (h : Parses get fun a bs => bs = put a) (henc : ∀ a, encodeEvent (mk a) = put a)
    (hkind : ∀ a, recordKind (mk a) = kind) :
    Parses (do return mk (← get)) fun ev bs => bs = encodeEvent ev ∧ recordKind ev = kind := by
  refine h.bind ?_
  rintro a _ rfl
  exact .pure ⟨by rw [henc, List.append_nil], hkind a⟩

theorem event_parses (kind : UInt8) (cur : Nat) :
    Parses (readEvent kind cur) fun ev bs => bs = encodeEvent ev ∧ recordKind ev = kind := by
  unfold readEvent
  split
  next h =>
    obtain rfl : kind = 1 := UInt8.toNat_inj.mp h
    exact field_parses .clockRead f64_parses (fun _ => rfl) fun _ => rfl
  next h =>
    obtain rfl : kind = 2 := UInt8.toNat_inj.mp h
    exact field_parses .randomRead f64_parses (fun _ => rfl) fun _ => rfl
  next h =>
    obtain rfl : kind = 3 := UInt8.toNat_inj.mp h
    exact field_parses .bytesRead bytes_parses (fun _ => rfl) fun _ => rfl
  next h =>
    obtain rfl : kind = 4 := UInt8.toNat_inj.mp h
    exact field_parses .monotonicRead f64_parses (fun _ => rfl) fun _ => rfl
  next h =>
    obtain rfl : kind = 5 := UInt8.toNat_inj.mp h
    exact field_parses .timerSet f64_parses (fun _ => rfl) fun _ => rfl
  next h =>
    obtain rfl : kind = 6 := UInt8.toNat_inj.mp h
    refine str_parses.bind ?_
    rintro name _ rfl
    refine u64_parses.bind ?_
    rintro argsHash _ rfl
    refine str_parses.bind ?_
    rintro resultJson _ rfl
    exact .pure ⟨by simp [encodeEvent], rfl⟩
  next h =>
    obtain rfl : kind = 7 := UInt8.toNat_inj.mp h
    refine str_parses.bind ?_
    rintro method _ rfl
    refine bytes_parses.bind ?_
    rintro result _ rfl
    refine (opt_parses "opt-string" str_parses).bind ?_
    rintro panic _ rfl
    exact .pure ⟨by simp [encodeEvent], rfl⟩
  next h =>
    obtain rfl : kind = 8 := UInt8.toNat_inj.mp h
    refine ffiRet_parses.bind ?_
    rintro ret _ rfl
    refine (list_parses outParam_parses).bind ?_
    rintro outParams _ rfl
    exact .pure ⟨by simp [encodeEvent], rfl⟩
  next h =>
    obtain rfl : kind = 9 := UInt8.toNat_inj.mp h
    refine (opt_parses "opt-bytes" bytes_parses).bind ?_
    rintro value _ rfl
    refine (opt_parses "opt-string" str_parses).bind ?_
    rintro panic _ rfl
    exact .pure ⟨by simp [encodeEvent], rfl⟩
  next h =>
    obtain rfl : kind = 10 := UInt8.toNat_inj.mp h
    refine str_parses.bind ?_
    rintro mod _ rfl
    refine str_parses.bind ?_
    rintro func _ rfl
    refine u64_parses.bind ?_
    rintro argsHash _ rfl
    refine outcome_parses.bind ?_
    rintro outcome _ rfl
    exact .pure ⟨by simp [encodeEvent], rfl⟩
  next h =>
    obtain rfl : kind = 11 := UInt8.toNat_inj.mp h
    refine u32_parses.bind ?_
    rintro vid _ rfl
    refine str_parses.bind ?_
    rintro method _ rfl
    refine u64_parses.bind ?_
    rintro argsHash _ rfl
    refine outcome_parses.bind ?_
    rintro outcome _ rfl
    exact .pure ⟨by simp [encodeEvent], rfl⟩
  next => exact .throw _

theorem kind_takes (k : TraceKind) : Takes readKind [k.toU8] k := by
  refine (u8_takes k.toU8).andThen ?_
  cases k <;> exact .pure _

theorem kind_parses : Parses readKind fun k bs => bs = [k.toU8] := by
  refine u8_parses.bind ?_
  rintro b _ rfl
  unfold TraceKind.fromU8
  split
  next k hk =>
    split at hk
    next h =>
      cases hk
      exact .pure (congrArg (fun b => [b]) (UInt8.toNat_inj.mp h))
    next h =>
      cases hk
      exact .pure (congrArg (fun b => [b]) (UInt8.toNat_inj.mp h))
    next => cases hk
  next => exact .throw _

theorem header_takes (h : TraceHeader) (hlen : (encodeHeaderBody h).length < 2 ^ 32) :
    Takes readHeader (encodeHeaderBody h) h := by
  simp only [encodeHeaderBody, List.length_append, List.length_cons, length_putText] at hlen
  have hpos : ∀ s, 0 < (putText s).length := by simp
  have hpath : Takes (str none) (putText h.programPath) h.programPath := str_takes (by omega)
  have hargv : Takes (list none (str none)) (putList putText h.argv) h.argv :=
    list_takes hpos (by omega) fun s hs => str_takes (by rw [length_putText] at hs; omega)
  refine (u64_takes h.seed).bind ((f64_takes h.startMs).bind ((kind_takes h.kind).bind ?_))
  refine hpath.bind ((Takes.array h.sourceSha256).bind (hargv.bind ?_))
  refine (optStr_takes (by omega)).bind ((optStr_takes (by omega)).bind ?_)
  exact (f64_takes h.createdMs).bind (u8_takes h.engine).map

theorem header_parses : Parses readHeader fun h bs => bs = encodeHeaderBody h := by
  refine u64_parses.bind ?_
  rintro seed _ rfl
  refine f64_parses.bind ?_
  rintro startMs _ rfl
  refine kind_parses.bind ?_
  rintro kind _ rfl
  refine str_parses.bind ?_
  rintro programPath _ rfl
  refine Parses.array.bind ?_
  rintro sourceSha256 _ rfl
  refine (list_parses str_parses).bind ?_
  rintro argv _ rfl
  refine (opt_parses "opt-string" str_parses).bind ?_
  rintro testName _ rfl
  refine (opt_parses "opt-string" str_parses).bind ?_
  rintro filter _ rfl
  refine f64_parses.bind ?_
  rintro createdMs _ rfl
  refine u8_parses.bind ?_
  rintro engine _ rfl
  exact .pure (by simp [encodeHeaderBody])

def EventFits (ev : Event) : Prop := (encodeEvent ev).length < 2 ^ 32

theorem record_takes (ev : Event) (cur : Nat) (h : EventFits ev) :
    Takes (readRecord (recordKind ev) cur) (recordBody ev) ev := by
  have hword : (encodeEvent ev).length < 256 ^ 4 := h
  have hlen : (encodeEvent ev).length < 2 ^ 64 := Nat.lt_trans h (by decide)
  rw [recordBody, putField, putCount_eq h, List.append_assoc]
  refine (Takes.word hword).bind (Takes.take.bind ((u32_takes _).andThen ?_))
  simp only [crcInput, ne_eq, not_true_eq_false, if_false]
  exact (event_takes ev cur h).inside hlen _

theorem record_parses (tag : UInt8) (cur : Nat) :
    Parses (readRecord tag cur) fun ev bs => tag :: bs = encodeRecord ev ∧ EventFits ev := by
  refine Parses.word.bind ?_
  rintro n _ ⟨rfl, hn⟩
  refine Parses.take.bind ?_
  rintro payload _ ⟨rfl, rfl⟩
  refine u32_parses.bind ?_
  rintro recCrc _ rfl
  split
  next => exact .throw _
  next hcrc =>
    refine ((event_parses tag cur).inside payload _).mono ?_
    rintro ev _ ⟨rfl, rfl, rfl⟩
    have hfits : (encodeEvent ev).length < 2 ^ 32 := by simpa using hn
    refine ⟨?_, hfits⟩
    rw [List.append_nil, encodeRecord, recordBody, putField, putCount_eq hfits, List.append_assoc,
      crcInput, not_not.mp hcrc]

theorem recordKind_ne (ev : Event) : recordKind ev ≠ 0xFF := by cases ev <;> simp [recordKind]

theorem records_turn (fuel : Nat) (events : List Event) {c : Cursor} (hc : c.Within)
    (hfits : EventFits ev)
    (hrest : c.rest = encodeRecord ev ++ cs) (hpos : c.pos + (encodeRecord ev).length < 2 ^ 64) :
    readRecords (fuel + 1) events c =
      readRecords fuel (events ++ [ev]) (c.advance (encodeRecord ev).length) := by
  have hhead : c.rest = [recordKind ev] ++ (recordBody ev ++ cs) := hrest
  rw [encodeRecord, List.length_cons] at hpos
  have htag : u8 (some events.length) c = some (.ok (recordKind ev, c.advance 1)) :=
    u8_takes (recordKind ev) c _ hc (by rw [List.length_singleton]; omega) hhead
  have hrec := record_takes ev events.length hfits _ cs (Cursor.within_advance hc hhead)
    (by show c.pos + 1 + _ < _; omega) (Cursor.rest_advance hhead)
  refine (Scan.bind_ok htag).trans ?_
  rw [if_neg (recordKind_ne ev)]
  refine (Scan.bind_ok hrec).trans ?_
  rw [Cursor.advance_advance, encodeRecord, List.length_singleton, List.length_cons, Nat.add_comm]

theorem records_run : ∀ (more events : List Event) (fuel : Nat) (c : Cursor),
    more.length < fuel → (∀ ev ∈ more, EventFits ev) → c.Within →
    c.rest = more.flatMap encodeRecord ++ (0xFF :: tail) →
    c.pos + (more.flatMap encodeRecord).length + 1 < 2 ^ 64 →
    ∃ c' : Cursor, c'.Within ∧ c'.rest = tail ∧
      c'.pos = c.pos + (more.flatMap encodeRecord).length + 1 ∧
      readRecords fuel events c = readEnd (events ++ more) c'
  | _, _, 0, _, hfuel, _, _, _, _ => absurd hfuel (Nat.not_lt_zero _)
  | [], events, fuel + 1, c, _, _, hc, hrest, hpos => by
    have hend : c.rest = [0xFF] ++ tail := hrest
    refine ⟨c.advance 1, Cursor.within_advance hc hend, Cursor.rest_advance hend, rfl, ?_⟩
    rw [List.append_nil]
    exact Scan.bind_ok (u8_takes 0xFF c tail hc hpos hend)
  | ev :: more, events, fuel + 1, c, hfuel, hfits, hc, hrest, hpos => by
    rw [List.flatMap_cons, List.append_assoc] at hrest
    rw [List.flatMap_cons, List.length_append, ← Nat.add_assoc] at hpos ⊢
    have hturn := records_turn fuel events hc (hfits ev (.head more)) hrest
      (by omega)
    obtain ⟨c', hc', htail, hpos', hrun⟩ := records_run more (events ++ [ev]) fuel
      (c.advance (encodeRecord ev).length) (Nat.lt_of_succ_lt_succ hfuel)
      (fun e he => hfits e (.tail ev he)) (Cursor.within_advance hc hrest)
      (Cursor.rest_advance hrest) hpos
    refine ⟨c', hc', htail, hpos', ?_⟩
    rw [hturn, hrun, List.append_assoc, List.singleton_append]

theorem count_parses (events : List Event) :
    Parses (readCount events) fun evs bs => evs = events ∧ bs = putCount events.length ∧
      events.length < 2 ^ 32 := by
  refine Parses.word.bind ?_
  rintro n _ ⟨rfl, hn⟩
  split
  next => exact .throw _
  next hcount =>
    obtain rfl : n = events.length := not_not.mp hcount
    have hlt : events.length < 2 ^ 32 := hn
    exact .pure ⟨rfl, by rw [List.append_nil, putCount_eq hlt], hlt⟩

theorem records_parses : ∀ (fuel : Nat) (events : List Event) (c : Cursor), c.Within →
    c.rest.length < fuel → ParsesAt (readRecords fuel events) (fun evs bs =>
      ∃ more, evs = events ++ more ∧ bs = more.flatMap encodeRecord ++
        (0xFF :: putCount evs.length) ∧
        evs.length < 2 ^ 32 ∧ ∀ ev ∈ more, EventFits ev) c
  | 0, _, _, _, hfuel => absurd hfuel (Nat.not_lt_zero _)
  | fuel + 1, events, c, hc, hfuel => by
    refine (u8_parses c hc).bind ?_
    rintro tag _ c₁ rfl hrest hc₁
    have hlen : c₁.rest.length < fuel := by
      rw [hrest, List.length_append, List.length_singleton] at hfuel
      omega
    split
    next htag =>
      subst htag
      refine ((count_parses events).whole _ c₁ hc₁).mono ?_
      rintro evs _ ⟨rfl, rfl, hlt⟩
      exact ⟨[], (List.append_nil _).symm, List.singleton_append, hlt, fun _ he => nomatch he⟩
    next =>
      refine (record_parses tag events.length c₁ hc₁).bind ?_
      rintro ev bs c₂ ⟨hev, hfits⟩ hrest₂ hc₂
      have hlen₂ : c₂.rest.length < fuel := by
        rw [hrest₂, List.length_append] at hlen
        omega
      refine (records_parses fuel (events ++ [ev]) c₂ hc₂ hlen₂).mono ?_
      rintro evs _ ⟨more, rfl, rfl, hlt, hmore⟩
      refine ⟨ev :: more, by rw [List.append_assoc, List.singleton_append], ?_, hlt,
        List.forall_mem_cons.mpr ⟨hfits, hmore⟩⟩
      rw [List.flatMap_cons, ← hev, List.append_assoc, List.append_assoc, List.cons_append]
      rfl

theorem records_end : ∀ (fuel : Nat) (events : List Event) (c : Cursor),
    readRecords fuel events c = some (.ok (evs, c')) → c'.atEnd = true
  | 0, _, _, h => nomatch h
  | fuel + 1, events, c, h => by
    obtain ⟨tag, c₁, -, h₁⟩ := Scan.bind_eq_ok h
    split at h₁
    · exact Scan.atEnd_of_whole h₁
    · obtain ⟨ev, c₂, -, h₂⟩ := Scan.bind_eq_ok h₁
      exact records_end fuel (events ++ [ev]) c₂ h₂

/-- What the lengths written in a trace can say. -/
structure Fits (h : TraceHeader) (evs : List Event) : Prop where
  header : (encodeHeaderBody h).length < 2 ^ 32
  events : ∀ ev ∈ evs, EventFits ev
  count : evs.length < 2 ^ 32
  total : (encodeTrace h evs).length < 2 ^ 64

def encodeUpTo (version : Nat) (h : TraceHeader) (events : List Event) : List UInt8 :=
  traceMagic ++ (le 2 version ++ (putField (encodeHeaderBody h) ++
    (putU32 (crc32 (encodeHeaderBody h)) ++ (events.flatMap encodeRecord ++ [0xFF]))))

theorem body_parses (version : Nat) (c : Cursor) (hc : c.Within) (hfuel : c.rest.length < fuel) :
    ParsesAt (readBody fuel) (fun r bs => traceMagic ++ (le 2 version ++ bs) =
        encodeUpTo version r.1 r.2 ++ putCount r.2.length ∧ (encodeHeaderBody r.1).length < 2 ^ 32 ∧
        r.2.length < 2 ^ 32 ∧ ∀ ev ∈ r.2, EventFits ev) c := by
  refine (Parses.word c hc).bind ?_
  rintro n _ c₁ ⟨rfl, hn⟩ hrest₁ hc₁
  refine (Parses.take c₁ hc₁).bind ?_
  rintro body _ c₂ ⟨rfl, rfl⟩ hrest₂ hc₂
  refine (u32_parses c₂ hc₂).bind ?_
  rintro crc _ c₃ rfl hrest₃ hc₃
  split
  next => exact Parses.throw _ _ hc₃
  next hcrc =>
    obtain rfl := not_not.mp hcrc
    refine (header_parses.inside body _ c₃ hc₃).bind ?_
    rintro h _ c₄ ⟨rfl, rfl⟩ hrest₄ hc₄
    have hlen : c₄.rest.length < fuel := by
      rw [hrest₁, hrest₂, hrest₃, hrest₄] at hfuel
      simp only [List.length_append] at hfuel
      omega
    refine (records_parses fuel [] c₄ hc₄ hlen).bind ?_
    rintro evs _ c₅ ⟨more, rfl, rfl, hcount, hevs⟩ - hc₅
    have hlt : (encodeHeaderBody h).length < 2 ^ 32 := hn
    refine Parses.pure ⟨?_, hlt, hcount, hevs⟩ c₅ hc₅
    simp [encodeUpTo, putField, putCount_eq hlt]

theorem container_parses (bs : List UInt8) :
    ParsesAt (readContainer (bs.length + 1)) (fun r cs => ∃ version ≤ traceFormatVersion,
      cs = encodeUpTo version r.1 r.2 ++ putCount r.2.length ∧
        (encodeHeaderBody r.1).length < 2 ^ 32 ∧ r.2.length < 2 ^ 32 ∧ ∀ ev ∈ r.2, EventFits ev)
      ⟨bs, 0⟩ := by
  refine (Parses.take _ (Cursor.within_start bs)).bind ?_
  rintro magic _ c₁ ⟨rfl, -⟩ hrest₁ hc₁
  split
  next => exact Parses.throw _ _ hc₁
  next hmagic =>
    obtain rfl := not_not.mp hmagic
    refine (Parses.word c₁ hc₁).bind ?_
    rintro version _ c₂ ⟨rfl, hversion⟩ hrest₂ hc₂
    split
    next => exact Parses.throw _ _ hc₂
    next hle =>
      have hlen : c₂.rest.length < bs.length + 1 := by
        rw [Cursor.rest_start] at hrest₁
        rw [hrest₁, hrest₂]
        simp only [List.length_append]
        omega
      refine (body_parses version c₂ hc₂ hlen).mono ?_
      rintro r cs ⟨hcs, hr⟩
      exact ⟨version, Nat.le_of_not_lt hle, hcs, hr⟩

theorem magic_takes : Takes (take none traceMagic.length) traceMagic traceMagic := .take

theorem container_run (hversion : version ≤ traceFormatVersion) (hfuel : evs.length < fuel)
    (hheader : (encodeHeaderBody h).length < 2 ^ 32) (hevs : ∀ ev ∈ evs, EventFits ev) {c : Cursor}
    (hpos : c.pos = 0) (hc : c.Within) (hrest : c.rest = encodeUpTo version h evs ++ tail)
    (hlen : (encodeUpTo version h evs).length < 2 ^ 64) :
    ∃ c' : Cursor, c'.Within ∧ c'.rest = tail ∧ c'.pos = (encodeUpTo version h evs).length ∧
      readContainer fuel c = (readEnd evs >>= fun evs => pure (h, evs)) c' := by
  have hsmall : version < 256 ^ 2 := Nat.lt_of_le_of_lt hversion (by decide)
  have hword : (encodeHeaderBody h).length < 256 ^ 4 := hheader
  have hbody : (encodeHeaderBody h).length < 2 ^ 64 := Nat.lt_trans hheader (by decide)
  simp only [encodeUpTo, putField, putCount_eq hheader, List.append_assoc, List.length_append,
    List.length_cons, List.length_nil, List.singleton_append] at hlen hrest ⊢
  obtain ⟨c₁, h₁, hc₁, hrest₁, hpos₁⟩ := magic_takes.step hc (by omega) hrest
  obtain ⟨c₂, h₂, hc₂, hrest₂, hpos₂⟩ := (Takes.word hsmall).step hc₁ (by omega) hrest₁
  obtain ⟨c₃, h₃, hc₃, hrest₃, hpos₃⟩ := (Takes.word hword).step hc₂ (by omega) hrest₂
  obtain ⟨c₄, h₄, hc₄, hrest₄, hpos₄⟩ := Takes.take.step hc₃ (by omega) hrest₃
  obtain ⟨c₅, h₅, hc₅, hrest₅, hpos₅⟩ := (u32_takes _).step hc₄ (by omega) hrest₄
  obtain ⟨c₆, h₆, hc₆, hrest₆, hpos₆⟩ :=
    ((header_takes h hheader).inside hbody (.truncated none)).step hc₅ (by simp; omega)
      (List.nil_append _).symm
  rw [List.length_nil] at hpos₆
  obtain ⟨c₇, hc₇, hrest₇, hpos₇, hrun⟩ := records_run evs [] fuel c₆ hfuel hevs hc₆
    (hrest₆.trans hrest₅) (by omega)
  refine ⟨c₇, hc₇, hrest₇, by omega, ?_⟩
  refine (h₁ _).trans ?_
  simp only [ne_eq, not_true_eq_false, if_false]
  refine (h₂ _).trans ?_
  rw [if_neg (Nat.not_lt.mpr hversion)]
  refine (h₃ _).trans ((h₄ _).trans ((h₅ _).trans ?_))
  simp only [ne_eq, not_true_eq_false, if_false]
  refine (h₆ _).trans ?_
  exact congrArg (Option.bind · _) hrun

def verdict (h : TraceHeader) (evs : List Event) (n : Nat) (rest : List UInt8) :
    Except TraceError (TraceHeader × List Event) :=
  if n ≠ evs.length then .error .badEndMarker
  else if rest = [] then .ok (h, evs) else .error .trailingBytes

theorem end_run {c : Cursor} (hc : c.Within) (hn : n < 2 ^ 32) (hrest : c.rest = le 4 n ++ rest)
    (hpos : c.pos + 4 < 2 ^ 64) :
    Option.map (Except.map Prod.fst) ((readEnd evs >>= fun evs => pure (h, evs)) c) =
      some (verdict h evs n rest) := by
  have htakes : Takes (word none 4) (le 4 n) n := .word hn
  obtain ⟨c₁, h₁, hc₁, hrest₁, -⟩ := htakes.step hc (by rw [length_le]; exact hpos) hrest
  have hend : c₁.atEnd = true ↔ rest = [] := by rw [Cursor.atEnd_iff hc₁, hrest₁]
  unfold verdict
  by_cases hcount : n = evs.length
  · have hrun : readCount evs c = some (.ok (evs, c₁)) := by
      refine (h₁ _).trans ?_
      rw [if_neg (not_not_intro hcount)]
      rfl
    rw [if_neg (not_not_intro hcount)]
    by_cases hnil : rest = []
    · have hwhole : readEnd evs c = some (.ok (evs, c₁)) := Scan.whole_end hrun (hend.mpr hnil)
      rw [if_pos hnil, Scan.bind_ok hwhole]
      rfl
    · have hfalse : c₁.atEnd = false := Bool.eq_false_iff.mpr fun he => hnil (hend.mp he)
      have hwhole : readEnd evs c = some (.error .trailingBytes) := Scan.whole_trailing hrun hfalse
      rw [if_neg hnil, Scan.bind_error hwhole]
      rfl
  · have hrun : readCount evs c = some (.error .badEndMarker) := by
      refine (h₁ _).trans ?_
      rw [if_pos hcount]
      rfl
    have hwhole : readEnd evs c = some (.error .badEndMarker) := Scan.bind_error hrun
    rw [if_pos hcount, Scan.bind_error hwhole]
    rfl

theorem length_records (evs : List Event) : evs.length ≤ (evs.flatMap encodeRecord).length := by
  rw [List.length_flatMap]
  induction evs with
  | nil => exact Nat.le_refl 0
  | cons ev evs ih =>
    simp only [List.map_cons, List.sum_cons, encodeRecord, List.length_cons] at ih ⊢
    omega

theorem length_le_upTo (version : Nat) (h : TraceHeader) (evs : List Event) :
    evs.length < (encodeUpTo version h evs).length := by
  have := length_records evs
  simp only [encodeUpTo, List.length_append, List.length_cons, List.length_nil]
  omega

theorem readTrace_upTo (hversion : version ≤ traceFormatVersion)
    (hheader : (encodeHeaderBody h).length < 2 ^ 32) (hevs : ∀ ev ∈ evs, EventFits ev)
    (hn : n < 2 ^ 32) (hlen : (encodeUpTo version h evs).length + 4 < 2 ^ 64) :
    readTrace (encodeUpTo version h evs ++ (le 4 n ++ rest)) = some (verdict h evs n rest) := by
  have hfuel : evs.length < (encodeUpTo version h evs ++ (le 4 n ++ rest)).length + 1 := by
    have := length_le_upTo version h evs
    rw [List.length_append]
    omega
  obtain ⟨c, hc, hrest, hpos, hrun⟩ := container_run hversion hfuel hheader hevs rfl
    (Cursor.within_start _) (Cursor.rest_start _) (by omega)
  rw [readTrace, hrun]
  exact end_run hc hn hrest (by omega)

theorem readTrace_counted (hversion : version ≤ traceFormatVersion)
    (hheader : (encodeHeaderBody h).length < 2 ^ 32) (hevs : ∀ ev ∈ evs, EventFits ev)
    (hn : n < 2 ^ 32) (hlen : (encodeUpTo version h evs).length + 4 < 2 ^ 64) :
    readTrace (encodeUpTo version h evs ++ le 4 n) = some (verdict h evs n []) := by
  rw [← readTrace_upTo hversion hheader hevs hn hlen, List.append_nil]

theorem container_end (h : readContainer fuel c = some (.ok (r, c'))) : c'.atEnd = true := by
  obtain ⟨magic, c₁, -, h⟩ := Scan.bind_eq_ok h
  split at h
  · cases h
  obtain ⟨version, c₂, -, h⟩ := Scan.bind_eq_ok h
  split at h
  · cases h
  obtain ⟨n, c₃, -, h⟩ := Scan.bind_eq_ok h
  obtain ⟨body, c₄, -, h⟩ := Scan.bind_eq_ok h
  obtain ⟨crc, c₅, -, h⟩ := Scan.bind_eq_ok h
  split at h
  · cases h
  obtain ⟨header, c₆, -, h⟩ := Scan.bind_eq_ok h
  obtain ⟨evs, c₇, hrecords, h⟩ := Scan.bind_eq_ok h
  cases h
  exact records_end fuel [] c₆ hrecords

theorem readTrace_accepts (hread : readTrace bs = some (.ok (h, evs))) :
    ∃ version ≤ traceFormatVersion, bs = encodeUpTo version h evs ++ le 4 evs.length ∧
      bs.length < 2 ^ 64 ∧ (encodeHeaderBody h).length < 2 ^ 32 ∧ evs.length < 2 ^ 32 ∧
      ∀ ev ∈ evs, EventFits ev := by
  obtain ⟨r, hr, haccepts⟩ := container_parses bs
  rw [readTrace, hr] at hread
  cases r with
  | error e => cases hread
  | ok r =>
    obtain ⟨r, c⟩ := r
    cases hread
    obtain ⟨cs, ⟨version, hversion, rfl, hheader, hcount, hevs⟩, hrest, hc, hbuf, hpos⟩ :=
      haccepts _ c rfl
    have hend := container_end hr
    have hlen : c.pos = bs.length := by
      rw [Cursor.atEnd, hbuf, beq_iff_eq] at hend
      exact hend
    rw [Cursor.rest_start, (Cursor.atEnd_iff hc).mp hend, List.append_nil,
      putCount_eq hcount] at hrest
    exact ⟨version, hversion, hrest, hlen ▸ hpos (Nat.two_pow_pos 64), hheader, hcount, hevs⟩

theorem encodeTrace_upTo (h : TraceHeader) (evs : List Event) :
    encodeTrace h evs = encodeUpTo traceFormatVersion h evs ++ putCount evs.length := by
  simp [encodeTrace, encodeBody, encodeUpTo]

/-- The version a trace says it has. -/
def versionOf (bs : List UInt8) : Nat := ofLe ((bs.drop traceMagic.length).take 2)

theorem versionOf_upTo (h : version ≤ traceFormatVersion) :
    versionOf (encodeUpTo version hdr evs ++ rest) = version := by
  have hlt : version < 256 ^ 2 := Nat.lt_of_le_of_lt h (by decide)
  rw [versionOf, encodeUpTo, List.append_assoc, List.drop_left, List.append_assoc,
    List.take_left' (length_le 2 version), ofLe_le hlt]

theorem readTrace_trailing (hread : readTrace bs = some (.ok (h, evs))) (hmore : more ≠ []) :
    readTrace (bs ++ more) = some (.error .trailingBytes) := by
  obtain ⟨version, hversion, rfl, hlen, hheader, hcount, hevs⟩ := readTrace_accepts hread
  rw [List.length_append, length_le] at hlen
  rw [List.append_assoc, readTrace_upTo hversion hheader hevs hcount hlen, verdict,
    if_neg (not_not_intro rfl), if_neg hmore]

theorem readTrace_total (bs : List UInt8) : ∃ r, readTrace bs = some r := by
  obtain ⟨r, hr, -⟩ := container_parses bs
  exact ⟨r.map Prod.fst, congrArg (Option.map _) hr⟩

/-- A trace is read back exactly when the lengths it writes can be written. What is accepted is what
the writer writes, every byte string gets an answer, and a trace that is cut short, miscounted or
has something behind it is refused. -/
theorem readTrace_encodeTrace :
    (∀ h evs, readTrace (encodeTrace h evs) = some (.ok (h, evs)) ↔ Fits h evs) ∧
    (∀ bs h evs, readTrace bs = some (.ok (h, evs)) → versionOf bs = traceFormatVersion →
      encodeTrace h evs = bs) ∧
    (∀ bs, ∃ r, readTrace bs = some r) ∧
    ∀ bs h evs, readTrace bs = some (.ok (h, evs)) →
      (∀ k < bs.length, ∃ e, readTrace (bs.take k) = some (.error e)) ∧
      (∀ n < 2 ^ 32, n ≠ evs.length →
        readTrace (bs.take (bs.length - 4) ++ le 4 n) = some (.error .badEndMarker)) ∧
      ∀ more ≠ [], readTrace (bs ++ more) = some (.error .trailingBytes) := by
  refine ⟨fun h evs => ⟨fun hread => ?_, fun hfits => ?_⟩, fun bs h evs hread hversion => ?_,
    readTrace_total, fun bs h evs hread => ⟨fun k hk => ?_, fun n hn hne => ?_,
      fun more => readTrace_trailing hread⟩⟩
  · obtain ⟨-, -, -, hlen, hheader, hcount, hevs⟩ := readTrace_accepts hread
    exact ⟨hheader, hevs, hcount, hlen⟩
  · have hlen := hfits.total
    rw [encodeTrace_upTo, List.length_append, length_putCount] at hlen
    rw [encodeTrace_upTo, putCount_eq hfits.count,
      readTrace_counted (Nat.le_refl _) hfits.header hfits.events hfits.count hlen, verdict,
      if_neg (not_not_intro rfl), if_pos rfl]
  · obtain ⟨version, hle, rfl, -, -, hcount, -⟩ := readTrace_accepts hread
    rw [versionOf_upTo hle] at hversion
    rw [encodeTrace_upTo, putCount_eq hcount, hversion]
  · obtain ⟨e | ⟨h', evs'⟩, hr⟩ := readTrace_total (bs.take k)
    · exact ⟨e, hr⟩
    · have hne : bs.drop k ≠ [] := by
        rw [ne_eq, List.drop_eq_nil_iff]
        omega
      have htrailing := readTrace_trailing hr hne
      rw [List.take_append_drop, hread] at htrailing
      cases htrailing
  · obtain ⟨version, hle, rfl, hlen, hheader, hcount, hevs⟩ := readTrace_accepts hread
    rw [List.length_append, length_le] at hlen ⊢
    rw [Nat.add_sub_cancel, List.take_left, readTrace_counted hle hheader hevs hn hlen, verdict,
      if_pos hne]

/-- A run of a program without arguments that reads the clock and asks a library. -/
def sampleHeader : TraceHeader :=
  ⟨7, ⟨0x3FF0000000000000#64⟩, .run, "main.as", ⟨List.replicate 32 0, rfl⟩, ["-v"], none, some "f",
    ⟨0x7FF8000000000000#64⟩, 1⟩

def sampleEvents : List Event :=
  [.clockRead ⟨0x8000000000000000#64⟩, .stdlibCall "fs" "read" 9 (.handle 2 5 [1, 2]),
    .ffiCall (.int (I64.wrap (-1))) [(3, [255])]]

theorem sample_fits : Fits sampleHeader sampleEvents where
  header := by decide +kernel
  events := by unfold EventFits; decide +kernel
  count := by decide
  total := by decide +kernel

theorem readTrace_encodeTrace_sample : Fits sampleHeader sampleEvents ∧
    readTrace (encodeTrace sampleHeader sampleEvents) = some (.ok (sampleHeader, sampleEvents)) ∧
    ∃ e, readTrace ((encodeTrace sampleHeader sampleEvents).take 100) = some (.error e) :=
  have hread := (readTrace_encodeTrace.1 sampleHeader sampleEvents).mpr sample_fits
  ⟨sample_fits, hread,
    (readTrace_encodeTrace.2.2.2 _ _ _ hread).1 100 (by decide +kernel)⟩

def outcomeLengths : TraceOutcome → List Nat
  | .value b | .propagate b => [b.length]
  | .panic s => [(utf8 s).length]
  | .handle _ _ fields => [fields.length]

def fieldLengths : Event → List Nat
  | .clockRead _ | .randomRead _ | .monotonicRead _ | .timerSet _ => []
  | .bytesRead b => [b.length]
  | .activityCompleted name _ resultJson => [(utf8 name).length, (utf8 resultJson).length]
  | .actorCall method result panic =>
    [(utf8 method).length, result.length] ++ panic.toList.map fun s => (utf8 s).length
  | .ffiCall _ outParams => outParams.length :: outParams.map fun p => p.2.length
  | .generatorYield value panic =>
    value.toList.map List.length ++ panic.toList.map fun s => (utf8 s).length
  | .stdlibCall mod func _ outcome =>
    [(utf8 mod).length, (utf8 func).length] ++ outcomeLengths outcome
  | .nativeCall _ method _ outcome => (utf8 method).length :: outcomeLengths outcome

def headerLengths (h : TraceHeader) : List Nat :=
  (h.programPath :: (h.argv ++ h.testName.toList ++ h.filter.toList)).map
    (fun s => (utf8 s).length) ++ [h.argv.length]

/-- Every length by itself fits 32 bits. -/
def LengthsFit (h : TraceHeader) (evs : List Event) : Prop :=
  (∀ n ∈ headerLengths h, n < 2 ^ 32) ∧ (∀ ev ∈ evs, ∀ n ∈ fieldLengths ev, n < 2 ^ 32) ∧
    evs.length < 2 ^ 32

/-- A byte draw of 2³² - 1 bytes makes a payload that is longer than its length field can say. -/
theorem oversized_payload_not_read :
    LengthsFit sampleHeader [.bytesRead (List.replicate (2 ^ 32 - 1) 0)] ∧
      readTrace (encodeTrace sampleHeader [.bytesRead (List.replicate (2 ^ 32 - 1) 0)]) ≠
        some (.ok (sampleHeader, [.bytesRead (List.replicate (2 ^ 32 - 1) 0)])) := by
  refine ⟨⟨by decide +kernel, ?_, by decide⟩, fun hread => ?_⟩
  · simp only [List.mem_singleton, forall_eq, fieldLengths, List.length_replicate]
    decide
  · obtain ⟨-, -, -, -, -, -, hevs⟩ := readTrace_accepts hread
    have hfits := hevs _ (.head _)
    rw [EventFits, encodeEvent, length_putField, List.length_replicate] at hfits
    exact absurd hfits (by decide)

end AScript.Trace
