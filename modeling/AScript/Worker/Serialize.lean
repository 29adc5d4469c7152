import AScript.Lib.Codec
import AScript.Runtime.Heap

/-! Structured clone of values between isolates (`worker/serialize.rs`). Addresses of the
sending heap are a parameter; a container of the copy has its serial id as its address. -/

namespace AScript.Worker

open AScript.Lib AScript.Runtime

structure SendError where
  kind : String
  path : String
  hint : Option String
  deriving DecidableEq

/-- What other libraries do: the formatting of paths, decimals as text, regular expressions. -/
structure Ext (D : Type) where
  debugStr : String → String
  displayKey : MapKey D → String
  decimalToString : D → String
  decimalFromStr : String → Option D
  regexCompiles : String → Bool

def channelHint : String :=
  "event emitters / channels are isolate-local; communicate across workers via worker results " ++
    "(Spec A) or actor/generator messages (Spec B)"

def unsendableKind : Val D A → Option (String × Option String)
  | .other (.code c) =>
    match c with
    | .function | .builtin | .closure | .boundMethod | .classMethod | .generatorMethod =>
      some ("function", none)
    | .nativeMethod => some ("native", none)
    | .native channelOrEvents => some ("native", if channelOrEvents then some channelHint else none)
    | .future => some ("future", none)
    | .generator => some ("generator", none)
    | .class => some ("class", none)
    | .interface => some ("interface", none)
    | .enum => some ("enum", none)
    | .super => some ("super", none)
  | _ => none

def isIdent (s : String) : Bool :=
  match s.toList with
  | [] => false
  | c :: cs => (c == '_' || c.isAlpha) && cs.all fun c => c == '_' || c.isAlphanum

section Gate

variable {D A : Type} (x : Ext D)

/-- `push_member`: what it appends to a path. -/
def member (key : String) : String :=
  if isIdent key then "." ++ key else "[" ++ x.debugStr key ++ "]"

def displayKey : MapKey D → String
  | .str s => x.debugStr s
  | k => x.displayKey k

def items (label : String) (vs : List (Val D A)) : List (String × Val D A) :=
  vs.zipIdx.map fun (v, i) => (label ++ "[" ++ toString i ++ "]", v)

def children : Cell D A → Option (List (String × Val D A))
  | .array vs => some (items "" vs)
  | .object m | .instance _ m => some (m.entries.map fun (k, v) => (member x k, v))
  | .map m => some (m.entries.map fun (k, v) => ("[" ++ displayKey x k ++ "]", v))
  | .set _ => some []
  | .bytes _ => none

def payloadChildren : Cell D A → List (String × Val D A)
  | .array vs => items ".payload.items" vs
  | .object m => m.entries.map fun (k, v) => (".payload" ++ member x k, v)
  | _ => []

variable [DecidableEq A] (h : Heap D A)

def checkAll (check : String → Val D A → List A → Except (Option SendError) (List A))
    (path : String) : List (String × Val D A) → List A → Except (Option SendError) (List A)
  | [], seen => .ok seen
  | (place, v) :: kids, seen => do checkAll check path kids (← check (path ++ place) v seen)

/-- `check_inner`. Out of fuel there is no error to report. -/
def checkInner : Nat → String → Val D A → List A → Except (Option SendError) (List A)
  | 0, _, _, _ => .error none
  | n + 1, path, v, seen =>
    match unsendableKind v with
    | some (kind, hint) => .error (some ⟨kind, path, hint⟩)
    | none =>
      match v with
      | .other (.cell a) =>
        match children x (h a) with
        | none => .ok seen
        | some kids => if a ∈ seen then .ok seen else checkAll (checkInner n) path kids (a :: seen)
      | .other (.variant _ _ value payload _ _) => do
        let seen ← checkInner n (path ++ ".value") value seen
        match payload with
        | none => .ok seen
        | some a =>
          if a ∈ seen then .ok seen
          else checkAll (checkInner n) path (payloadChildren x (h a)) (a :: seen)
      | _ => .ok seen

end Gate

def walkFuel (A : Type) [Fintype A] : Nat := 2 * Fintype.card A + 2

def checkSendable [DecidableEq A] [Fintype A] (x : Ext D) (h : Heap D A) (v : Val D A) :
    Except (Option SendError) Unit := do
  let _ ← checkInner x h (walkFuel A) "" v []
  return ()

namespace Tag

def nil : UInt8 := 0
def bool : UInt8 := 1
def number : UInt8 := 2
def decimal : UInt8 := 3
def str : UInt8 := 4
def bytes : UInt8 := 5
def array : UInt8 := 6
def object : UInt8 := 7
def map : UInt8 := 8
def set : UInt8 := 9
def enum : UInt8 := 10
def regex : UInt8 := 11
def instance' : UInt8 := 12
def ref : UInt8 := 13
def int : UInt8 := 14
def shared : UInt8 := 15

end Tag

structure Enc (A : Type) where
  ids : List A
  shared : List Nat

def Enc.empty : Enc A := ⟨[], []⟩

def Enc.intern [DecidableEq A] (e : Enc A) (a : A) : Except Nat (Nat × Enc A) :=
  if a ∈ e.ids then .error (e.ids.idxOf a) else .ok (e.ids.length, { e with ids := e.ids ++ [a] })

abbrev Encoder (A α : Type) := α → Enc A → Option (List UInt8 × Enc A)

namespace Encoder

def after (pre : List UInt8) (enc : Encoder A α) : Encoder A α := fun a e =>
  (enc a e).map fun (bs, e) => (pre ++ bs, e)

def all (enc : Encoder A α) : Encoder A (List α)
  | [], e => some ([], e)
  | a :: as, e => do
    let (bs, e) ← enc a e
    let (cs, e) ← all enc as e
    return (bs ++ cs, e)

end Encoder

section Encode

variable {D A : Type} [DecidableEq A] (x : Ext D) (h : Heap D A)

def encodeCell (enc : Encoder A (Val D A)) (id : Nat) : Encoder A (Cell D A)
  | .bytes raw, e => some (Tag.bytes :: le 4 id ++ putBytes raw, e)
  | .array vs, e => Encoder.after (Tag.array :: le 4 id ++ le 4 vs.length) enc.all vs e
  | .object m, e =>
    Encoder.after (Tag.object :: le 4 id ++ le 4 m.len)
      (Encoder.all fun (k, v) => Encoder.after (putStr k) enc v) m.entries e
  | .map m, e =>
    Encoder.after (Tag.map :: le 4 id ++ le 4 m.len)
      (Encoder.all fun (k, v) e => do
        let (bs, e) ← enc k.toValue e
        Encoder.after bs enc v e) m.entries e
  | .set m, e =>
    Encoder.after (Tag.set :: le 4 id ++ le 4 m.len)
      (Encoder.all fun (k, _) => enc k.toValue) m.entries e
  | .instance cls m, e =>
    Encoder.after (Tag.instance' :: le 4 id ++ putStr cls.name ++ le 4 m.len)
      (Encoder.all fun (k, v) => Encoder.after (putStr k) enc v) m.entries e

def payloadTag : Cell D A → Option UInt8
  | .array _ => some 1
  | .object _ => some 2
  | _ => none

/-- `encode_value`. Reaching a value that cannot be sent is a bug, and there are no bytes. -/
def encodeValue : Nat → Encoder A (Val D A)
  | 0, _, _ => none
  | n + 1, v, e =>
    match v with
    | .nil => some ([Tag.nil], e)
    | .bool b => some ([Tag.bool, if b then 1 else 0], e)
    | .int i => some (Tag.int :: le 8 (i.val % 2 ^ 64).toNat, e)
    | .float f => some (Tag.number :: le 8 f.bits.toNat, e)
    | .decimal d => some (Tag.decimal :: putStr (x.decimalToString d), e)
    | .str s => some (Tag.str :: putStr s, e)
    | .other (.cell a) =>
      match e.intern a with
      | .error id => some (Tag.ref :: le 4 id, e)
      | .ok (id, e) => encodeCell (encodeValue n) id (h a) e
    | .other (.variant enumName name value payload _ _) => do
      let (bs, e) ← encodeValue n value e
      let pre := Tag.enum :: putStr enumName ++ putStr name ++ bs
      match payload with
      | none => some (pre ++ [0], e)
      | some a =>
        let tag ← payloadTag (h a)
        Encoder.after (pre ++ [tag]) (encodeValue n) (.other (.cell a)) e
    | .other (.regex source) => some (Tag.regex :: putStr source, e)
    | .other (.shared node) =>
      some (Tag.shared :: le 4 e.shared.length, { e with shared := e.shared ++ [node] })
    | .other (.code _) => none

/-- `encode`: the check first; then the bytes and the shared nodes. -/
def encode [Fintype A] (v : Val D A) :
    Except (Option SendError) (Option (List UInt8 × List Nat)) := do
  checkSendable x h v
  return (encodeValue x h (walkFuel A) v .empty).map fun (bs, e) => (bs, e.shared)

end Encode

def decodeErr (path : String) : SendError := ⟨"decode", path, none⟩

def truncatedErr : SendError := decodeErr "<truncated>"

abbrev Decoder (D : Type) := Reader (List (Cell D Nat)) SendError

namespace Decoder

variable {D : Type}

def u8 : Decoder D UInt8 := Reader.u8 truncatedErr

def u32 : Decoder D Nat := Reader.word truncatedErr 4

def u64 : Decoder D Nat := Reader.word truncatedErr 8

def str : Decoder D String := Reader.str truncatedErr (decodeErr "<utf8>")

/-- `register`: an empty container under its id. -/
def register (id : Nat) (c : Cell D Nat) : Decoder D Unit := do
  let cells ← Reader.state
  if id = cells.length then Reader.setState (cells ++ [c])
  else throw (decodeErr s!"<bad-id {id}>")

def fill (id : Nat) (c : Cell D Nat) : Decoder D (Val D Nat) := do
  let cells ← Reader.state
  Reader.setState (cells.set id c)
  return .other (.cell id)

def container (id : Nat) (empty : Cell D Nat) (read : Decoder D α) (c : List α → Cell D Nat) :
    Decoder D (Val D Nat) := do
  register id empty
  let n ← u32
  fill id (c (← Reader.many read n))

def key (path : String) (v : Val D Nat) : Decoder D (MapKey D) :=
  match MapKey.fromValue v with
  | some k => return k
  | none => throw (decodeErr path)

def payload (kind : CellKind) (v : Val D Nat) : Decoder D Nat := do
  let cells ← Reader.state
  match v with
  | .other (.cell a) =>
    if (cells[a]?).map Cell.kind = some kind then return a else throw (decodeErr "<enum-payload>")
  | _ => throw (decodeErr "<enum-payload>")

end Decoder

section Decode

variable {D : Type} [DecidableEq D] (x : Ext D) (far : String → String → Option (Val D Nat))
  (shared : List Nat)

def decodeEntry (value : Decoder D (Val D Nat)) : Decoder D (String × Val D Nat) := do
  let k ← Decoder.str
  return (k, ← value)

def decodeMapEntry (value : Decoder D (Val D Nat)) : Decoder D (MapKey D × Val D Nat) := do
  let k ← value
  let v ← value
  return (← Decoder.key "<map-key>" k, v)

def decodeSetElem (value : Decoder D (Val D Nat)) : Decoder D (MapKey D × Unit) := do
  return (← Decoder.key "<set-elem>" (← value), ())

def decodeVariant (value : Decoder D (Val D Nat)) (enumName name : String) (backing : Val D Nat) :
    Decoder D (Val D Nat) := do
  let tag ← Decoder.u8
  match tag.toNat with
  | 0 =>
    return (far enumName name).getD (.other (.variant enumName name backing none false false))
  | 1 =>
    let a ← Decoder.payload .array (← value)
    return .other (.variant enumName name .nil (some a) false false)
  | 2 =>
    let a ← Decoder.payload .object (← value)
    return .other (.variant enumName name .nil (some a) false false)
  | other => throw (decodeErr s!"<enum-payload-tag {other}>")

/-- `decode_value`. Each level reads a byte, so fuel for each byte is enough. `far` finds the
receiver's interned variant of a name. -/
def decodeValue : Nat → Decoder D (Val D Nat)
  | 0 => throw truncatedErr
  | n + 1 => do
    let tag ← Decoder.u8
    match tag.toNat with
    | 0 => return .nil
    | 1 => return .bool ((← Decoder.u8) != 0)
    | 14 => return .int (.wrap (← Decoder.u64))
    | 2 => return .float ⟨BitVec.ofNat 64 (← Decoder.u64)⟩
    | 3 =>
      match x.decimalFromStr (← Decoder.str) with
      | some d => return .decimal d
      | none => throw (decodeErr "<decimal>")
    | 4 => return .str (← Decoder.str)
    | 5 =>
      let id ← Decoder.u32
      Decoder.register id (.bytes [])
      Decoder.fill id (.bytes (← Reader.bytes truncatedErr))
    | 6 => Decoder.container (← Decoder.u32) (.array []) (decodeValue n) .array
    | 7 =>
      Decoder.container (← Decoder.u32) (.object .empty) (decodeEntry (decodeValue n))
        fun kvs => .object (.ofPairs kvs)
    | 8 =>
      Decoder.container (← Decoder.u32) (.map .empty) (decodeMapEntry (decodeValue n))
        fun kvs => .map (.ofPairs kvs)
    | 9 =>
      Decoder.container (← Decoder.u32) (.set .empty) (decodeSetElem (decodeValue n))
        fun ks => .set (.ofPairs ks)
    | 10 =>
      let enumName ← Decoder.str
      let name ← Decoder.str
      let backing ← decodeValue n
      decodeVariant far (decodeValue n) enumName name backing
    | 11 =>
      let source ← Decoder.str
      if x.regexCompiles source then return .other (.regex source)
      else throw (decodeErr "<regex>")
    | 12 =>
      let id ← Decoder.u32
      let className ← Decoder.str
      Decoder.container id (.instance ⟨className, []⟩ .empty) (decodeEntry (decodeValue n))
        fun kvs => .instance ⟨className, []⟩ (.ofPairs kvs)
    | 13 =>
      let id ← Decoder.u32
      let cells ← Reader.state
      if id < cells.length then return .other (.cell id) else throw (decodeErr s!"<ref {id}>")
    | 15 =>
      let idx ← Decoder.u32
      match shared[idx]? with
      | some node => return .other (.shared node)
      | none => throw (decodeErr s!"<shared {idx}>")
    | other => throw (decodeErr s!"<tag {other}>")

/-- `decode_with_shared`: the value, and the containers made for it. -/
def decode (bytes : List UInt8) : Except SendError (Val D Nat × List (Cell D Nat)) :=
  (decodeValue x far shared (bytes.length + 1) (bytes, [])).map fun (v, (_, cells)) => (v, cells)

end Decode

end AScript.Worker
