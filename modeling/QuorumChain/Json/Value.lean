/-!
JSON values. Texts keep how they were written, since what a text may hold depends on where it
stands: names and ordinary texts have to be proper Unicode, texts that stand for bytes need not.
-/

namespace QuorumChain

namespace Json

/-- A part of a text between its quotes. -/
inductive Piece where
  /-- a character that stands for itself -/
  | plain (c : Char)
  /-- an escape sequence, standing for a UTF-16 unit -/
  | escaped (unit : Nat)
deriving DecidableEq

end Json

/-- A JSON value. Of the numbers only natural ones are told apart. -/
inductive Json where
  | null
  | bool (b : Bool)
  | natural (v : Nat)
  /-- a number with a sign, a fraction or an exponent -/
  | otherNumber
  | text (pieces : List Json.Piece)
  | array (items : List Json)
  | object (members : List (List Json.Piece × Json))

namespace Json

/-- A code point, or half of one that has no other half. -/
abbrev CodePoint := Nat

def isHighHalf (unit : Nat) : Bool := 0xD800 ≤ unit && unit < 0xDC00

def isLowHalf (unit : Nat) : Bool := 0xDC00 ≤ unit && unit < 0xE000

/-- The code points of a text; an escaped high half joins with an escaped low half right after it. -/
def codePoints : List Piece → List CodePoint
  | .escaped hi :: .escaped lo :: rest =>
    if isHighHalf hi && isLowHalf lo then
      (0x10000 + (hi - 0xD800) * 0x400 + (lo - 0xDC00)) :: codePoints rest
    else hi :: codePoints (.escaped lo :: rest)
  | .escaped unit :: rest => unit :: codePoints rest
  | .plain c :: rest => c.toNat :: codePoints rest
  | [] => []

/-- Control characters have to be escaped, except in texts that stand for bytes. -/
def hasNoControl (pieces : List Piece) : Bool :=
  pieces.all fun
    | .plain c => 0x20 ≤ c.toNat
    | .escaped _ => true

def charOf? (v : CodePoint) : Option Char :=
  if h : v.isValidChar then some (Char.ofNatAux v h) else none

/-- The text, if it is proper Unicode without bare control characters. -/
def properText? (pieces : List Piece) : Option (List Char) :=
  if hasNoControl pieces then (codePoints pieces).mapM charOf? else none

/-- UTF-8, by the same rule also for a half that stands alone. -/
def utf8Bytes (v : CodePoint) : List UInt8 :=
  if v < 0x80 then [UInt8.ofNat v]
  else if v < 0x800 then [UInt8.ofNat (0xC0 + v / 0x40), UInt8.ofNat (0x80 + v % 0x40)]
  else if v < 0x10000 then
    [UInt8.ofNat (0xE0 + v / 0x1000), UInt8.ofNat (0x80 + v / 0x40 % 0x40), UInt8.ofNat (0x80 + v % 0x40)]
  else
    [UInt8.ofNat (0xF0 + v / 0x40000), UInt8.ofNat (0x80 + v / 0x1000 % 0x40),
      UInt8.ofNat (0x80 + v / 0x40 % 0x40), UInt8.ofNat (0x80 + v % 0x40)]

/-- The bytes that a text stands for. -/
def textBytes (pieces : List Piece) : List UInt8 := (codePoints pieces).flatMap utf8Bytes

/-- The text of characters that need no escape. -/
def ofChars (cs : List Char) : Json := text (cs.map .plain)

def ofString (s : String) : Json := ofChars s.toList

mutual

/-- A value that is skipped may hold halves of code points but no bare control characters. -/
def isSkippable : Json → Bool
  | text pieces => hasNoControl pieces
  | array items => areSkippable items
  | object members => areMembersSkippable members
  | _ => true

def areSkippable : List Json → Bool
  | [] => true
  | j :: rest => isSkippable j && areSkippable rest

def areMembersSkippable : List (List Piece × Json) → Bool
  | [] => true
  | (name, j) :: rest => hasNoControl name && isSkippable j && areMembersSkippable rest

end

end Json

end QuorumChain
