import AScript.Lib.Codec

namespace AScript.Lib

structure Sink (E : Type) where
  buf : List UInt8
  overflow : Option E

abbrev Writer (E : Type) := StateT (Sink E) (Except E)

namespace Writer

variable {E : Type}

def put (bs : List UInt8) : Writer E Unit := fun s => .ok ((), { s with buf := s.buf ++ bs })

def u8 (b : UInt8) : Writer E Unit := put [b]

def flag (b : Bool) : Writer E Unit := u8 b.toUInt8

def word (k n : Nat) : Writer E Unit := put (le k n)

def len (tooLarge : Nat → E) (n : Nat) : Writer E Unit := fun s =>
  if n < 2 ^ 32 then word 4 n s
  else word 4 (2 ^ 32 - 1) { s with overflow := s.overflow.or (some (tooLarge n)) }

def bytes (tooLarge : Nat → E) (bs : List UInt8) : Writer E Unit := do
  len tooLarge bs.length
  put bs

def str (tooLarge : Nat → E) (s : String) : Writer E Unit := bytes tooLarge (utf8 s)

end Writer

def Writes (w : Writer E Unit) (bs : List UInt8) : Prop :=
  ∀ buf, w ⟨buf, none⟩ = .ok ((), ⟨buf ++ bs, none⟩)

namespace Writes

variable {E : Type} {w w' : Writer E Unit} {bs cs : List UInt8} {tooLarge : Nat → E}

theorem pure : Writes (Pure.pure () : Writer E Unit) [] := by
  intro buf
  rw [List.append_nil]
  rfl

theorem bind (h : Writes w bs) (h' : Writes w' cs) :
    Writes (w >>= fun _ => w') (bs ++ cs) := by
  intro buf
  rw [← List.append_assoc]
  exact (congrArg (· >>= fun r : Unit × Sink E => w' r.2) (h buf)).trans (h' (buf ++ bs))

theorem put (bs : List UInt8) : Writes (Writer.put bs : Writer E Unit) bs := fun _ => rfl

theorem len (h : n < 2 ^ 32) : Writes (Writer.len tooLarge n) (le 4 n) := fun _ => if_pos h

theorem bytes (h : bs.length < 2 ^ 32) : Writes (Writer.bytes tooLarge bs) (putBytes bs) :=
  (Writes.len h).bind (.put bs)

end Writes

def Trip (w w' : Writer E Unit) (r : Nat → Reader Unit E α) (a : α) : Prop :=
  ∃ n bs, Writes w bs ∧ Writes w' bs ∧ ∀ fuel ≥ n, Reads (r fuel) bs () a ()

namespace Trip

variable {E α β : Type} {w w' w₁ w₁' w₂ w₂' : Writer E Unit} {r r₁ : Nat → Reader Unit E α}
  {f : Nat → α → Reader Unit E β} {a : α} {b : β} {tooLarge : Nat → E} {short bad : E}

theorem pure (a : α) :
    Trip (Pure.pure () : Writer E Unit) (Pure.pure ()) (fun _ => Pure.pure a) a :=
  ⟨0, [], .pure, .pure, fun _ _ => .pure⟩

theorem bind (h₁ : Trip w₁ w₁' r₁ a) (h₂ : Trip w₂ w₂' (fun n => f n a) b) :
    Trip (w₁ >>= fun _ => w₂) (w₁' >>= fun _ => w₂') (fun n => r₁ n >>= f n) b := by
  obtain ⟨n, bs, hw, hw', hr⟩ := h₁
  obtain ⟨m, cs, hv, hv', hs⟩ := h₂
  refine ⟨max n m, bs ++ cs, hw.bind hv, hw'.bind hv', fun fuel hle => ?_⟩
  exact (hr fuel (Nat.le_trans (Nat.le_max_left n m) hle)).bind
    (hs fuel (Nat.le_trans (Nat.le_max_right n m) hle))

theorem andThen (h₁ : Trip w w' r a) (h₂ : ∀ n, Reads (f n a) [] () b ()) :
    Trip w w' (fun n => r n >>= f n) b := by
  obtain ⟨n, bs, hw, hw', hr⟩ := h₁
  exact ⟨n, bs, hw, hw', fun fuel hle => (hr fuel hle).andThen (h₂ fuel)⟩

theorem map {g : α → β} (h : Trip w w' r a) :
    Trip w w' (fun n => r n >>= fun x => Pure.pure (g x)) (g a) :=
  h.andThen fun _ => .pure

theorem succ (h : Trip w w' (fun n => r (n + 1)) a) : Trip w w' r a := by
  obtain ⟨n, bs, hw, hw', hr⟩ := h
  refine ⟨n + 1, bs, hw, hw', fun fuel hle => ?_⟩
  obtain ⟨m, rfl⟩ := Nat.exists_eq_add_one_of_ne_zero (Nat.ne_zero_of_lt hle)
  exact hr m (Nat.le_of_succ_le_succ hle)

theorem u8 (b : UInt8) : Trip (Writer.u8 b) (Writer.u8 b) (fun _ => Reader.u8 short) b :=
  ⟨0, [b], .put _, .put _, fun _ _ => .u8 b⟩

theorem flag (b : Bool) :
    Trip (Writer.flag b) (Writer.flag b) (fun _ => do return (← Reader.u8 short) != 0) b := by
  have hb : (b.toUInt8 != 0) = b := by cases b <;> rfl
  have ht : Trip (Writer.flag b) (Writer.flag b) (fun _ => do return (← Reader.u8 short) != 0)
      (b.toUInt8 != 0) := (u8 b.toUInt8).map
  rwa [hb] at ht

theorem word (h : n < 256 ^ k) :
    Trip (Writer.word k n) (Writer.word k n) (fun _ => Reader.word short k) n :=
  ⟨0, le k n, .put _, .put _, fun _ _ => .word h⟩

theorem len (h : n < 2 ^ 32) :
    Trip (Writer.len tooLarge n) (Writer.len tooLarge n) (fun _ => Reader.word short 4) n :=
  ⟨0, le 4 n, .len h, .len h, fun _ _ => .word (by simpa using h)⟩

theorem bytes {bs : List UInt8} (h : bs.length < 2 ^ 32) :
    Trip (Writer.bytes tooLarge bs) (Writer.bytes tooLarge bs) (fun _ => Reader.bytes short) bs :=
  ⟨0, _, .bytes h, .bytes h, fun _ _ => .bytes h⟩

theorem str {s : String} (h : (utf8 s).length < 2 ^ 32) :
    Trip (Writer.str tooLarge s) (Writer.str tooLarge s) (fun _ => Reader.str short bad) s :=
  ⟨0, _, .bytes h, .bytes h, fun _ _ => .str h⟩

theorem nil : Trip (Pure.pure () : Writer E Unit) (Pure.pure ())
    (fun n => Reader.many (r n) 0) ([] : List α) :=
  pure []

theorem cons {as : List α} (h : Trip w₁ w₁' r a)
    (hs : Trip w₂ w₂' (fun n => Reader.many (r n) as.length) as) :
    Trip (w₁ >>= fun _ => w₂) (w₁' >>= fun _ => w₂')
      (fun n => Reader.many (r n) (a :: as).length) (a :: as) :=
  h.bind (f := fun n a => do return a :: (← Reader.many (r n) as.length)) hs.map

end Trip

def Tagged (reserved : UInt8) (w w' : Writer E Unit) (r : Nat → UInt8 → Reader Unit E α) (a : α) :
    Prop :=
  ∃ tag n bs, tag ≠ reserved ∧ Writes w (tag :: bs) ∧ Writes w' (tag :: bs) ∧
    ∀ fuel ≥ n, Reads (r fuel tag) bs () a ()

namespace Tagged

variable {E α β : Type} {reserved : UInt8} {w w' : Writer E Unit}
  {r : Nat → UInt8 → Reader Unit E α} {a : α}

theorem alone (tag : UInt8) (ht : tag ≠ reserved) (h : ∀ n, Reads (r n tag) [] () a ()) :
    Tagged reserved (Writer.u8 tag) (Writer.u8 tag) r a :=
  ⟨tag, 0, [], ht, .put _, .put _, fun fuel _ => h fuel⟩

theorem tag (tag : UInt8) (ht : tag ≠ reserved) (h : Trip w w' (fun n => r n tag) a) :
    Tagged reserved (Writer.u8 tag >>= fun _ => w) (Writer.u8 tag >>= fun _ => w') r a := by
  obtain ⟨n, bs, hw, hw', hr⟩ := h
  exact ⟨tag, n, bs, ht, (Writes.put [tag]).bind hw, (Writes.put [tag]).bind hw', hr⟩

theorem trip {short : E} {f : Nat → UInt8 → Reader Unit E β} {g : Nat → α → Reader Unit E β} {b : β}
    (h : Tagged reserved w w' r a) (hf : ∀ n tag, tag ≠ reserved → f n tag = r n tag >>= g n)
    (hg : ∀ n, Reads (g n a) [] () b ()) : Trip w w' (fun n => Reader.u8 short >>= f n) b := by
  obtain ⟨tag, n, bs, ht, hw, hw', hr⟩ := h
  refine ⟨n, tag :: bs, hw, hw', fun fuel hle => ?_⟩
  refine Reads.bind (Reads.u8 tag) ?_
  rw [hf fuel tag ht]
  exact (hr fuel hle).andThen (hg fuel)

end Tagged

end AScript.Lib
