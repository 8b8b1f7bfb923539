import QuorumChain.Counter

/-!
The wire format: big-endian, integers of variable length, and a limit on what reading may cost.

A reader is charged for the bytes that it is about to need, each before it looks at them, and stops
when the charges pass the limit. So a short input cannot make it reserve much.
-/

namespace QuorumChain

/-- The width of an integer that stands where a narrower one is wanted. -/
inductive IntegerWidth where
  | u64
  | u128
  | reserved
deriving DecidableEq, Repr

/-- Why a byte string is not the wire form of a value. -/
inductive WireError where
  | unexpectedEnd
  | limitExceeded
  | invalidIntegerType (found : IntegerWidth)
  | unexpectedVariant (found : Nat)
  | invalidBoolean (found : UInt8)
  | leftoverBytes
deriving DecidableEq, Repr

/-- A short name for each sort of error. -/
def WireError.kind : WireError → String
  | unexpectedEnd => "UnexpectedEnd"
  | limitExceeded => "LimitExceeded"
  | invalidIntegerType _ => "InvalidIntegerType"
  | unexpectedVariant _ => "UnexpectedVariant"
  | invalidBoolean _ => "InvalidBooleanValue"
  | leftoverBytes => "Other"

/-- What was found instead, as far as an error tells. -/
def WireError.detail : WireError → Option String
  | unexpectedEnd | limitExceeded => none
  | invalidIntegerType .u64 => some "U64"
  | invalidIntegerType .u128 => some "U128"
  | invalidIntegerType .reserved => some "Reserved"
  | unexpectedVariant found => some (toString found)
  | invalidBoolean found => some (toString found.toNat)
  | leftoverBytes => some "leftover bytes"

namespace Wire

/-- The most bytes that a reader may be charged for. -/
def limit : Nat := 16777216

/-- Where a reader stands: the bytes ahead of it and the charges so far. -/
structure Cursor where
  rest : List UInt8
  charged : Nat
deriving DecidableEq

abbrev Decoder := StateT Cursor (Except WireError)

def fail {α : Type} (e : WireError) : Decoder α := throw e

/-- Counts bytes about to be needed. -/
def charge (k : Nat) : Decoder Unit := fun c =>
  if c.charged + k ≤ limit then .ok ((), ⟨c.rest, c.charged + k⟩) else .error .limitExceeded

/-- Takes back what was charged for an element ahead of it. -/
def refund (k : Nat) : Decoder Unit := fun c => .ok ((), ⟨c.rest, c.charged - k⟩)

/-- The next `k` bytes. -/
def take (k : Nat) : Decoder (FixedBytes k) := fun c =>
  match FixedBytes.ofList? k (c.rest.take k) with
  | some bs => .ok (bs, ⟨c.rest.drop k, c.charged⟩)
  | none => .error .unexpectedEnd

def takeByte : Decoder UInt8 := fun c =>
  match c.rest with
  | b :: rest => .ok (b, ⟨rest, c.charged⟩)
  | [] => .error .unexpectedEnd

/-- A number below 251 is its own byte; else a byte tells how many bytes follow. -/
def varintBytes (v : Nat) : List UInt8 :=
  if v < 251 then [UInt8.ofNat v]
  else if v < 2 ^ 16 then 251 :: bytesOfNat 2 v
  else if v < 2 ^ 32 then 252 :: bytesOfNat 4 v
  else 253 :: bytesOfNat 8 v

/-- Reads a number of at most 64 bits, or of at most 32 bits if not `wide`. A form longer than
needed is accepted. -/
def takeVarint (wide : Bool) : Decoder Nat := do
  let b ← takeByte
  if b < 251 then return b.toNat
  else if b = 251 then return natOfBytes (← take 2).bytes
  else if b = 252 then return natOfBytes (← take 4).bytes
  else if b = 253 then
    if wide then return natOfBytes (← take 8).bytes else fail (.invalidIntegerType .u64)
  else if b = 254 then fail (.invalidIntegerType .u128)
  else fail (.invalidIntegerType .reserved)

/-- A writer, a reader, and what the reader is charged in all for a written value. -/
structure Codec (α : Type) where
  encode : α → List UInt8
  decode : Decoder α
  cost : α → Nat

namespace Codec

variable {α β : Type}

/-- Bytes as they are. -/
def fixed (n : Nat) : Codec (FixedBytes n) where
  encode x := x.bytes
  decode := do charge n; take n
  cost _ := n

/-- The codec of a type whose values are those of another. -/
def via (c : Codec α) (wrap : α → β) (unwrap : β → α) : Codec β where
  encode y := c.encode (unwrap y)
  decode := do return wrap (← c.decode)
  cost y := c.cost (unwrap y)

def byte : Codec UInt8 where
  encode b := [b]
  decode := do charge 1; takeByte
  cost _ := 1

def bool : Codec Bool where
  encode b := if b then [1] else [0]
  decode := do
    match ← byte.decode with
    | 0 => return false
    | 1 => return true
    | b => fail (.invalidBoolean b)
  cost _ := 1

def u32 : Codec UInt32 where
  encode v := varintBytes v.toNat
  decode := do charge 4; return UInt32.ofNat (← takeVarint false)
  cost _ := 4

/-- A counter of any kind as a varint. -/
def counter (kind : CounterKind) : Codec (Counter kind) where
  encode v := varintBytes v.number
  decode := do charge 8; return .ofNatClamped (← takeVarint true)
  cost _ := 8

/-- A counter of any kind as eight bytes. -/
def counterBytes (kind : CounterKind) : Codec (Counter kind) :=
  (fixed 8).via Counter.ofBytes Counter.toBytes

def option (c : Codec α) : Codec (Option α) where
  encode
    | none => [0]
    | some x => 1 :: c.encode x
  decode := do
    match ← byte.decode with
    | 0 => return none
    | 1 => return some (← c.decode)
    | b => fail (.unexpectedVariant b.toNat)
  cost
    | none => 1
    | some x => 1 + c.cost x

def pair (c : Codec α) (d : Codec β) : Codec (α × β) where
  encode x := c.encode x.1 ++ d.encode x.2
  decode := do
    let x ← c.decode
    return (x, ← d.decode)
  cost x := c.cost x.1 + d.cost x.2

/-- A length; one that 64 bits cannot hold is past every limit anyway. -/
def lengthBytes (k : Nat) : List UInt8 := (counter .serial).encode (.ofNatClamped k)

def takeLength : Decoder Nat := do return (← (counter .serial).decode).number

/-- Bytes after their number. -/
def bytes : Codec (List UInt8) where
  encode bs := lengthBytes bs.length ++ bs
  decode := do
    let k ← takeLength
    charge k
    return (← take k).bytes
  cost bs := 8 + bs.length

/-- Reads `k` elements that `size` bytes each were charged for. -/
def decodeMany (size : Nat) (c : Codec α) : (k : Nat) → Decoder (List α)
  | 0 => return []
  | k + 1 => do
    refund size
    let x ← c.decode
    return x :: (← decodeMany size c k)

/-- Elements after their number, an element taking `size` bytes in a reader's memory. -/
def list (size : Nat) (c : Codec α) : Codec (List α) where
  encode xs := lengthBytes xs.length ++ xs.flatMap c.encode
  decode := do
    let k ← takeLength
    charge (k * size)
    decodeMany size c k
  cost xs := 8 + xs.length * size + (xs.map c.cost).foldr (· + ·) 0

/-- The number of a variant. -/
def tagBytes (tag : Nat) : List UInt8 := varintBytes tag

def takeTag : Decoder Nat := do
  charge 4
  takeVarint false

/-- Reads a value that nothing may follow. -/
def decodeWhole (c : Codec α) (bs : List UInt8) : Except WireError α := do
  let (x, cursor) ← c.decode ⟨bs, 0⟩
  if cursor.rest.isEmpty then .ok x else .error .leftoverBytes

end Codec

end Wire

end QuorumChain
