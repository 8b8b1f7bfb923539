import QuorumChain.Json.Value

/-!
JSON texts of values, without any space.
-/

namespace QuorumChain.Json

/-- The decimal digits of a number. -/
def decimal (v : Nat) : List Char :=
  if _h : v < 10 then [Char.ofNat (48 + v)] else decimal (v / 10) ++ [Char.ofNat (48 + v % 10)]
termination_by v
decreasing_by omega

/-- A hexadecimal digit. -/
def hexDigit (v : Nat) : Char := Char.ofNat (if v < 10 then 48 + v else 87 + v)

def printPiece : Piece → List Char
  | .plain c => [c]
  | .escaped u =>
    ['\\', 'u', hexDigit (u / 4096), hexDigit (u / 256 % 16), hexDigit (u / 16 % 16), hexDigit (u % 16)]

def printText (pieces : List Piece) : List Char :=
  '"' :: pieces.flatMap printPiece ++ ['"']

mutual

def print : Json → List Char
  | null => ['n', 'u', 'l', 'l']
  | bool true => ['t', 'r', 'u', 'e']
  | bool false => ['f', 'a', 'l', 's', 'e']
  | natural v => decimal v
  | otherNumber => ['-', '0']
  | text pieces => printText pieces
  | array items => '[' :: printItems items ++ [']']
  | object members => '\x7b' :: printMembers members ++ ['\x7d']

/-- The items of an array with commas between them. -/
def printItems : List Json → List Char
  | [] => []
  | [j] => print j
  | j :: rest => print j ++ ',' :: printItems rest

/-- The members of an object with commas between them. -/
def printMembers : List (List Piece × Json) → List Char
  | [] => []
  | [(name, j)] => printText name ++ ':' :: print j
  | (name, j) :: rest => printText name ++ ':' :: print j ++ ',' :: printMembers rest

end

def render (j : Json) : String := String.ofList (print j)

end QuorumChain.Json
