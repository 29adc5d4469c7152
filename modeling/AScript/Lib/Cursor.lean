import AScript.Lib.Codec

namespace AScript.Lib

structure Cursor where
  buf : List UInt8
  pos : Nat

namespace Cursor

def rest (c : Cursor) : List UInt8 := c.buf.drop c.pos

def Within (c : Cursor) : Prop := c.pos ≤ c.buf.length

def advance (c : Cursor) (n : Nat) : Cursor := { c with pos := c.pos + n }

def atEnd (c : Cursor) : Bool := c.pos == c.buf.length

theorem advance_advance (c : Cursor) (m n : Nat) :
    (c.advance m).advance n = c.advance (m + n) := by
  rw [advance, advance, advance, Nat.add_assoc]

theorem length_rest (c : Cursor) : c.rest.length = c.buf.length - c.pos := List.length_drop

theorem rest_advance {c : Cursor} (h : c.rest = bs ++ cs) : (c.advance bs.length).rest = cs := by
  have hd : (c.buf.drop c.pos).drop bs.length = cs := by
    rw [show c.buf.drop c.pos = bs ++ cs from h, List.drop_left]
  rw [List.drop_drop] at hd
  exact hd

theorem within_advance {c : Cursor} (hc : c.Within) (h : c.rest = bs ++ cs) :
    (c.advance bs.length).Within := by
  have hl : c.rest.length = bs.length + cs.length := by rw [h, List.length_append]
  rw [length_rest] at hl
  unfold Within advance at *
  dsimp only
  omega

theorem atEnd_iff {c : Cursor} (hc : c.Within) : c.atEnd = true ↔ c.rest = [] := by
  rw [atEnd, beq_iff_eq, rest, List.drop_eq_nil_iff]
  unfold Within at hc
  omega

theorem rest_start (bs : List UInt8) : (⟨bs, 0⟩ : Cursor).rest = bs := rfl

theorem within_start (bs : List UInt8) : (⟨bs, 0⟩ : Cursor).Within := Nat.zero_le _

end Cursor

theorem utf8_of_ofUtf8 (h : ofUtf8 bs = some s) : utf8 s = bs := by
  unfold ofUtf8 String.fromUTF8? at h
  split at h
  · cases h
    rfl
  · cases h

/-- A reader that may refuse its input, or go wrong (`none`): index out of range, or never end. -/
abbrev Scan (E : Type) := StateT Cursor (ExceptT E Option)

/-- `bs[i..j]`. -/
def slice (bs : List UInt8) (i j : Nat) : Option (List UInt8) :=
  if i ≤ j ∧ j ≤ bs.length then some ((bs.drop i).take (j - i)) else none

def fromLe : Nat → List UInt8 → Option Nat
  | 0, _ => some 0
  | _ + 1, [] => none
  | k + 1, b :: bs => (fromLe k bs).map (b.toNat + 256 * ·)

theorem fromLe_take : ∀ {k : Nat} {bs : List UInt8}, k ≤ bs.length →
    fromLe k bs = some (ofLe (bs.take k))
  | 0, _, _ => rfl
  | _ + 1, b :: _, h =>
    congrArg (Option.map (b.toNat + 256 * ·)) (fromLe_take (Nat.le_of_succ_le_succ h))

theorem fromLe_length (bs : List UInt8) : fromLe bs.length bs = some (ofLe bs) := by
  rw [fromLe_take (Nat.le_refl _), List.take_length]

theorem fromLe_le (h : n < 256 ^ k) (rest : List UInt8) : fromLe k (le k n ++ rest) = some n := by
  rw [fromLe_take (by simp), List.take_left' (length_le k n), ofLe_le h]

theorem ofLe_lt : ∀ bs, ofLe bs < 256 ^ bs.length
  | [] => by decide
  | b :: bs => by
    have hb := b.toNat_lt
    have hbs := ofLe_lt bs
    rw [ofLe, List.length_cons, Nat.pow_succ]
    omega

theorem le_ofLe : ∀ bs, le bs.length (ofLe bs) = bs
  | [] => rfl
  | b :: bs => by
    have hb : b.toNat < 256 := b.toNat_lt
    have hhead : UInt8.ofNat (b.toNat + 256 * ofLe bs) = b := by
      apply UInt8.toNat_inj.mp
      rw [UInt8.toNat_ofNat']
      omega
    have htail : (b.toNat + 256 * ofLe bs) / 256 = ofLe bs := by omega
    rw [List.length_cons, ofLe, le, hhead, htail, le_ofLe bs]

namespace Scan

variable {E α β : Type}

def fault : Scan E α := fun _ => (none : Option (Except E (α × Cursor)))

def ofOption : Option α → Scan E α
  | some a => pure a
  | none => fault

/-- `take`: the end of the slice is computed with a check, then compared with the buffer. -/
def take (overflow short : E) (n : Nat) : Scan E (List UInt8) := fun c =>
  if 2 ^ 64 ≤ c.pos + n then some (.error overflow)
  else if c.buf.length < c.pos + n then some (.error short)
  else (slice c.buf c.pos (c.pos + n)).map fun s => .ok (s, c.advance n)

def word (overflow short : E) (k : Nat) : Scan E Nat := do
  let b ← take overflow short k
  ofOption (fromLe k b)

def bytes (overflow short : E) : Scan E (List UInt8) := do
  let n ← word overflow short 4
  take overflow short n

def str (overflow short bad : E) : Scan E String := do
  match ofUtf8 (← bytes overflow short) with
  | some s => return s
  | none => throw bad

def array (overflow short : E) (n : Nat) : Scan E { bs : List UInt8 // bs.length = n } := do
  let bs ← take overflow short n
  if h : bs.length = n then return ⟨bs, h⟩ else fault

def many (p : Scan E α) : Nat → Scan E (List α)
  | 0 => pure []
  | n + 1 => do
    let a ← p
    let as ← many p n
    return a :: as

def atEnd : Scan E Bool := fun c => some (.ok (c.atEnd, c))

def whole (trailing : E) (p : Scan E α) : Scan E α := do
  let a ← p
  if ← atEnd then return a else throw trailing

def inside (bs : List UInt8) (p : Scan E α) : Scan E α := fun c =>
  match p ⟨bs, 0⟩ with
  | none => none
  | some (.error e) => some (.error e)
  | some (.ok (a, _)) => some (.ok (a, c))

theorem bind_ok {p : Scan E α} {f : α → Scan E β} (h : p c = some (.ok (a, c'))) :
    (p >>= f) c = f a c' :=
  congrArg (Option.bind · _) h

theorem bind_error {p : Scan E α} {f : α → Scan E β} (h : p c = some (.error e)) :
    (p >>= f) c = some (.error e) :=
  congrArg (Option.bind · _) h

theorem whole_end {p : Scan E α} (h : p c = some (.ok (a, c'))) (he : c'.atEnd = true) :
    whole trailing p c = some (.ok (a, c')) := by
  have hend : (atEnd : Scan E Bool) c' = some (.ok (true, c')) := by rw [← he]; rfl
  exact (bind_ok h).trans (bind_ok hend)

theorem whole_trailing {p : Scan E α} (h : p c = some (.ok (a, c'))) (he : c'.atEnd = false) :
    whole trailing p c = some (.error trailing) := by
  have hend : (atEnd : Scan E Bool) c' = some (.ok (false, c')) := by rw [← he]; rfl
  exact (bind_ok h).trans (bind_ok hend)

theorem bind_eq_ok {p : Scan E α} {f : α → Scan E β} (h : (p >>= f) c = some (.ok (b, c''))) :
    ∃ a c', p c = some (.ok (a, c')) ∧ f a c' = some (.ok (b, c'')) := by
  match hp : p c with
  | some (.ok (a, c')) => exact ⟨a, c', rfl, (bind_ok hp).symm.trans h⟩
  | some (.error e) => cases (bind_error hp).symm.trans h
  | none => cases (congrArg (Option.bind · _) hp).symm.trans h

theorem atEnd_of_whole {p : Scan E α} (h : whole trailing p c = some (.ok (a, c'))) :
    c'.atEnd = true := by
  obtain ⟨x, c₁, hp, -⟩ := bind_eq_ok h
  cases he : c₁.atEnd with
  | false => cases (whole_trailing hp he).symm.trans h
  | true =>
    cases (whole_end hp he).symm.trans h
    exact he

end Scan

def ParsesAt (p : Scan E α) (P : α → List UInt8 → Prop) (c : Cursor) : Prop :=
  ∃ r, p c = some r ∧ ∀ a c', r = .ok (a, c') →
    ∃ bs, P a bs ∧ c.rest = bs ++ c'.rest ∧ c'.Within ∧ c'.buf = c.buf ∧
      (c.pos < 2 ^ 64 → c'.pos < 2 ^ 64)

def Parses (p : Scan E α) (P : α → List UInt8 → Prop) : Prop :=
  ∀ c : Cursor, c.Within → ParsesAt p P c

section Parses

variable {E α β : Type} {p : Scan E α} {f : α → Scan E β} {P P' : α → List UInt8 → Prop}
  {Q : β → List UInt8 → Prop} {overflow short bad : E}

theorem ParsesAt.bind (hp : ParsesAt p P c)
    (hf : ∀ a bs c', P a bs → c.rest = bs ++ c'.rest → c'.Within →
      ParsesAt (f a) (fun b cs => Q b (bs ++ cs)) c') :
    ParsesAt (p >>= f) Q c := by
  obtain ⟨e | ⟨a, c'⟩, hr, hrest⟩ := hp
  · exact ⟨.error e, Scan.bind_error hr, nofun⟩
  obtain ⟨bs, ha, hbs, hc', hbuf, hpos⟩ := hrest a c' rfl
  obtain ⟨r', hr', hrest'⟩ := hf a bs c' ha hbs hc'
  refine ⟨r', (Scan.bind_ok hr).trans hr', fun b c'' he => ?_⟩
  obtain ⟨cs, hb, hcs, hc'', hbuf', hpos'⟩ := hrest' b c'' he
  exact ⟨bs ++ cs, hb, by rw [hbs, hcs, List.append_assoc], hc'', hbuf'.trans hbuf,
    fun h => hpos' (hpos h)⟩

theorem ParsesAt.mono (hp : ParsesAt p P c) (h : ∀ a bs, P a bs → P' a bs) : ParsesAt p P' c := by
  obtain ⟨r, hr, hrest⟩ := hp
  refine ⟨r, hr, fun a c' he => ?_⟩
  obtain ⟨bs, ha, hbs⟩ := hrest a c' he
  exact ⟨bs, h a bs ha, hbs⟩

namespace Parses

theorem pure (h : P a []) : Parses (Pure.pure a : Scan E α) P := by
  intro c hc
  refine ⟨.ok (a, c), rfl, ?_⟩
  rintro _ _ ⟨⟩
  exact ⟨[], h, rfl, hc, rfl, id⟩

theorem throw (e : E) : Parses (MonadExcept.throw e : Scan E α) P :=
  fun _ _ => ⟨.error e, rfl, nofun⟩

theorem bind (hp : Parses p P) (hf : ∀ a bs, P a bs → Parses (f a) fun b cs => Q b (bs ++ cs)) :
    Parses (p >>= f) Q :=
  fun c hc => (hp c hc).bind fun a bs c' ha _ hc' => hf a bs ha c' hc'

theorem mono (hp : Parses p P) (h : ∀ a bs, P a bs → P' a bs) : Parses p P' :=
  fun c hc => (hp c hc).mono h

theorem take : Parses (Scan.take overflow short n) fun a bs => a = bs ∧ bs.length = n := by
  intro c hc
  unfold ParsesAt Scan.take
  split
  · exact ⟨_, rfl, nofun⟩
  split
  · exact ⟨_, rfl, nofun⟩
  next hlt hle =>
    have hslice : slice c.buf c.pos (c.pos + n) = some (c.rest.take n) := by
      rw [slice, if_pos ⟨by omega, by omega⟩, Nat.add_sub_cancel_left]
      rfl
    have hlen : (c.rest.take n).length = n := by
      rw [List.length_take, Cursor.length_rest]
      unfold Cursor.Within at hc
      omega
    have hrest : c.rest = c.rest.take n ++ c.rest.drop n := (List.take_append_drop n c.rest).symm
    refine ⟨.ok (c.rest.take n, c.advance n), by rw [hslice]; rfl, ?_⟩
    rintro _ _ ⟨⟩
    have hadv := Cursor.rest_advance hrest
    have hin := Cursor.within_advance hc hrest
    rw [hlen] at hadv hin
    exact ⟨_, ⟨rfl, hlen⟩, by rw [hadv]; exact hrest, hin, rfl,
      fun _ => Nat.lt_of_not_le hlt⟩

theorem word : Parses (Scan.word overflow short k) fun a bs => bs = le k a ∧ a < 256 ^ k := by
  refine take.bind ?_
  rintro bs _ ⟨rfl, rfl⟩
  rw [fromLe_length]
  exact pure ⟨by rw [le_ofLe, List.append_nil], ofLe_lt bs⟩

theorem bytes : Parses (Scan.bytes overflow short) fun a bs => bs = putBytes a ∧
    a.length < 2 ^ 32 := by
  refine word.bind ?_
  rintro n _ ⟨rfl, hn⟩
  refine take.mono ?_
  rintro _ bs ⟨rfl, rfl⟩
  exact ⟨rfl, by simpa using hn⟩

theorem str : Parses (Scan.str overflow short bad) fun a bs =>
    bs = putStr a ∧ (utf8 a).length < 2 ^ 32 := by
  refine bytes.bind ?_
  rintro a _ ⟨rfl, ha⟩
  split
  next s hs =>
    have : utf8 s = a := utf8_of_ofUtf8 hs
    exact pure ⟨by rw [putStr, this, List.append_nil], by rwa [this]⟩
  next => exact throw _

theorem array : Parses (Scan.array overflow short n) fun a bs => bs = a.val := by
  refine take.bind ?_
  rintro bs _ ⟨rfl, hn⟩
  rw [dif_pos hn]
  exact pure (List.append_nil bs)

theorem many {enc : α → List UInt8} {G : α → Prop}
    (hp : Parses p fun a bs => bs = enc a ∧ G a) : ∀ n,
    Parses (Scan.many p n) fun as bs => bs = as.flatMap enc ∧ as.length = n ∧ ∀ a ∈ as, G a
  | 0 => pure ⟨rfl, rfl, nofun⟩
  | n + 1 => by
    refine hp.bind ?_
    rintro a _ ⟨rfl, ha⟩
    refine (many hp n).bind ?_
    rintro as _ ⟨rfl, rfl, has⟩
    refine pure ⟨?_, rfl, List.forall_mem_cons.mpr ⟨ha, has⟩⟩
    rw [List.append_nil, List.flatMap_cons]

theorem whole (hp : Parses p P) (trailing : E) : Parses (Scan.whole trailing p) P := by
  intro c hc
  obtain ⟨e | ⟨a, c'⟩, hr, hrest⟩ := hp c hc
  · exact ⟨.error e, Scan.bind_error hr, nofun⟩
  cases he : c'.atEnd with
  | false => exact ⟨_, Scan.whole_trailing hr he, nofun⟩
  | true => exact ⟨_, Scan.whole_end hr he, hrest⟩

theorem inside (hp : Parses p P) (bs : List UInt8) (trailing : E) :
    Parses (Scan.inside bs (Scan.whole trailing p)) fun a cs => cs = [] ∧ P a bs := by
  intro c hc
  unfold ParsesAt Scan.inside
  obtain ⟨e | ⟨a, c'⟩, hr, hrest⟩ := hp ⟨bs, 0⟩ (Cursor.within_start bs)
  · rw [show Scan.whole trailing p ⟨bs, 0⟩ = some (.error e) from Scan.bind_error hr]
    exact ⟨_, rfl, nofun⟩
  obtain ⟨cs, ha, hcs, hc', -⟩ := hrest a c' rfl
  cases he : c'.atEnd with
  | false =>
    rw [Scan.whole_trailing hr he]
    exact ⟨_, rfl, nofun⟩
  | true =>
    rw [Scan.whole_end hr he]
    rw [(Cursor.atEnd_iff hc').mp he, List.append_nil, Cursor.rest_start] at hcs
    refine ⟨_, rfl, ?_⟩
    rintro _ _ ⟨⟩
    exact ⟨[], ⟨rfl, hcs ▸ ha⟩, rfl, hc, rfl, id⟩

end Parses

end Parses

def Safe (p : Scan E α) : Prop := Parses p fun _ _ => True

namespace Safe

variable {E α β : Type} {p : Scan E α} {f : α → Scan E β} {P : α → List UInt8 → Prop}

theorem of_parses (hp : Parses p P) : Safe p := hp.mono fun _ _ _ => trivial

theorem pure (a : α) : Safe (Pure.pure a : Scan E α) := Parses.pure trivial

theorem throw (e : E) : Safe (MonadExcept.throw e : Scan E α) := Parses.throw e

theorem bind (hp : Safe p) (hf : ∀ a, Safe (f a)) : Safe (p >>= f) :=
  Parses.bind hp fun a _ _ => hf a

theorem ite [Decidable c] {p q : Scan E α} (hp : Safe p) (hq : Safe q) :
    Safe (if c then p else q) := by
  split
  · exact hp
  · exact hq

theorem many (hp : Safe p) : ∀ n, Safe (Scan.many p n)
  | 0 => pure []
  | n + 1 => hp.bind fun _ => (many hp n).bind fun _ => pure _

end Safe

def Takes (p : Scan E α) (bs : List UInt8) (a : α) : Prop :=
  ∀ (c : Cursor) (rest : List UInt8), c.Within → c.pos + bs.length < 2 ^ 64 →
    c.rest = bs ++ rest → p c = some (.ok (a, c.advance bs.length))

namespace Takes

variable {E α β : Type} {p : Scan E α} {f : α → Scan E β} {overflow short bad : E}

theorem pure (a : α) : Takes (Pure.pure a : Scan E α) [] a := fun _ _ _ _ _ => rfl

theorem bind (hp : Takes p bs a) (hf : Takes (f a) cs b) : Takes (p >>= f) (bs ++ cs) b := by
  intro c rest hc hlen h
  rw [List.append_assoc] at h
  rw [List.length_append, ← Nat.add_assoc] at hlen
  have hcs := hf (c.advance bs.length) rest (Cursor.within_advance hc h) hlen
    (Cursor.rest_advance h)
  rw [Scan.bind_ok (hp c (cs ++ rest) hc (by omega) h), hcs, Cursor.advance_advance,
    List.length_append]

theorem andThen (hp : Takes p bs a) (hf : Takes (f a) [] b) : Takes (p >>= f) bs b := by
  simpa using hp.bind hf

theorem step {c : Cursor} (hp : Takes p bs a) (hc : c.Within) (hpos : c.pos + bs.length < 2 ^ 64)
    (h : c.rest = bs ++ cs) :
    ∃ c' : Cursor, (∀ {β : Type} (f : α → Scan E β), (p >>= f) c = f a c') ∧ c'.Within ∧
      c'.rest = cs ∧ c'.pos = c.pos + bs.length :=
  ⟨c.advance bs.length, fun _ => Scan.bind_ok (hp c cs hc hpos h), Cursor.within_advance hc h,
    Cursor.rest_advance h, rfl⟩

theorem map {g : α → β} (hp : Takes p bs a) : Takes (p >>= fun x => Pure.pure (g x)) bs (g a) :=
  hp.andThen (pure (g a))

theorem take : Takes (Scan.take overflow short bs.length) bs bs := by
  intro c rest hc hlen h
  have hl : c.rest.length = bs.length + rest.length := by rw [h, List.length_append]
  rw [Cursor.length_rest] at hl
  unfold Cursor.Within at hc
  have hslice : slice c.buf c.pos (c.pos + bs.length) = some bs := by
    rw [slice, if_pos ⟨by omega, by omega⟩, Nat.add_sub_cancel_left]
    have htake : (c.buf.drop c.pos).take bs.length = bs := by
      rw [show c.buf.drop c.pos = bs ++ rest from h, List.take_left]
    rw [htake]
  rw [Scan.take, if_neg (by omega), if_neg (by omega), hslice]
  rfl

theorem word (h : n < 256 ^ k) : Takes (Scan.word overflow short k) (le k n) n := by
  have ht : Takes (Scan.take overflow short (le k n).length) (le k n) (le k n) := take
  rw [length_le] at ht
  refine ht.andThen ?_
  have hn := fromLe_length (le k n)
  rw [length_le, ofLe_le h] at hn
  rw [hn]
  exact pure n

theorem bytes {bs : List UInt8} (h : bs.length < 2 ^ 32) :
    Takes (Scan.bytes overflow short) (putBytes bs) bs :=
  (word (by simpa using h)).bind take

theorem str {s : String} (h : (utf8 s).length < 2 ^ 32) :
    Takes (Scan.str overflow short bad) (putStr s) s := by
  refine (bytes h).andThen ?_
  rw [ofUtf8_utf8]
  exact pure s

theorem array (a : { bs : List UInt8 // bs.length = n }) :
    Takes (Scan.array overflow short n) a.val a := by
  have ht : Takes (Scan.take overflow short a.val.length) a.val a.val := take
  rw [a.property] at ht
  refine ht.andThen ?_
  rw [dif_pos a.property]
  exact pure a

theorem many {enc : α → List UInt8} : ∀ {as : List α}, (∀ a ∈ as, Takes p (enc a) a) →
    Takes (Scan.many p as.length) (as.flatMap enc) as
  | [], _ => pure []
  | a :: as, h => by
    have has : ∀ b ∈ as, Takes p (enc b) b := fun b hb => h b (.tail a hb)
    exact (h a (.head as)).bind (many has).map

theorem inside (hp : Takes p bs a) (hbs : bs.length < 2 ^ 64) (trailing : E) :
    Takes (Scan.inside bs (Scan.whole trailing p)) [] a := by
  intro c rest hc hlen h
  have hrun := hp ⟨bs, 0⟩ [] (Cursor.within_start bs) (by simpa using hbs) (List.append_nil bs).symm
  have hend : (Cursor.advance ⟨bs, 0⟩ bs.length).atEnd = true := by
    simp [Cursor.atEnd, Cursor.advance]
  rw [Scan.inside, Scan.whole_end hrun hend]
  rfl

end Takes

end AScript.Lib
