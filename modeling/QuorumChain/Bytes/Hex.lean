import QuorumChain.Bytes

/-!
Hexadecimal text of byte strings: written in lower case, read in either case.
-/

namespace QuorumChain

/-- Why a text is not the hexadecimal form of a byte string; positions count the bytes of its UTF-8 form. -/
inductive HexError where
  | symbol (position : Nat)
  | length (position : Nat)
deriving DecidableEq, Repr

/-- A short name for each sort of error. -/
def HexError.kind : HexError → String
  | .symbol _ => "Symbol"
  | .length _ => "Length"

def HexError.message : HexError → String
  | .symbol p => s!"invalid symbol at {p}"
  | .length p => s!"invalid length at {p}"

namespace Hex

/-- The digit of a value below 16. -/
def digit (v : Nat) : Char :=
  if v < 10 then Char.ofNat (48 + v) else Char.ofNat (87 + v)

/-- Two digits a byte, the high half first. -/
def encodeChars (bs : List UInt8) : List Char :=
  bs.flatMap fun b => [digit (b.toNat / 16), digit (b.toNat % 16)]

def encode (bs : List UInt8) : String :=
  String.ofList (encodeChars bs)

/-- The value of a byte of text read as a digit. -/
def value? (c : UInt8) : Option Nat :=
  if 48 ≤ c ∧ c ≤ 57 then some (c.toNat - 48)
  else if 97 ≤ c ∧ c ≤ 102 then some (c.toNat - 87)
  else if 65 ≤ c ∧ c ≤ 70 then some (c.toNat - 55)
  else none

/-- Reads pairs of digits; `position` is where the first of them stands. -/
def decodePairs (position : Nat) : List UInt8 → Except HexError (List UInt8)
  | hi :: lo :: rest =>
    match value? hi, value? lo with
    | some h, some l => (decodePairs (position + 2) rest).map (UInt8.ofNat (16 * h + l) :: ·)
    | none, _ => .error (.symbol position)
    | some _, none => .error (.symbol (position + 1))
  | _ => .ok []

/-- An odd number of digits is found before any symbol that is no digit. -/
def decodeUtf8 (text : List UInt8) : Except HexError (List UInt8) :=
  if text.length % 2 = 1 then .error (.length (text.length - 1)) else decodePairs 0 text

def decode (text : String) : Except HexError (List UInt8) :=
  decodeUtf8 text.toUTF8.toList

end Hex

namespace FixedBytes

variable {n : Nat}

def toHex (x : FixedBytes n) : String := Hex.encode x.bytes

/-- The digits of the first four bytes, enough to tell identifiers apart. -/
def toShortHex (x : FixedBytes n) : String := Hex.encode (x.bytes.take 4)

/-- A wrong number of bytes is reported at the start of the text. -/
def ofHex (n : Nat) (text : String) : Except HexError (FixedBytes n) := do
  match ofList? n (← Hex.decode text) with
  | some x => .ok x
  | none => .error (.length 0)

end FixedBytes

end QuorumChain
