import QuorumChain.Json.Value

/-!
Reads JSON texts. A reader takes characters and gives a value with the characters after it.
-/

namespace QuorumChain.Json

def isBlank (c : Char) : Bool := c == ' ' || c == '\n' || c == '\t' || c == '\r'

def skipBlanks (cs : List Char) : List Char := cs.dropWhile isBlank

/-- The rest after an expected beginning. -/
def afterWord? : (word : List Char) → List Char → Option (List Char)
  | [], cs => some cs
  | w :: word, c :: cs => if w = c then afterWord? word cs else none
  | _ :: _, [] => none

def digitValue (c : Char) : Nat := c.toNat - 48

/-- The number that decimal digits stand for. -/
def ofDecimal (digits : List Char) : Nat :=
  digits.foldl (fun acc c => acc * 10 + digitValue c) 0

def hexValue? (c : Char) : Option Nat :=
  if '0' ≤ c ∧ c ≤ '9' then some (c.toNat - 48)
  else if 'a' ≤ c ∧ c ≤ 'f' then some (c.toNat - 87)
  else if 'A' ≤ c ∧ c ≤ 'F' then some (c.toNat - 55)
  else none

/-- Passes over digits, of which there has to be one at least. -/
def afterDigits? (cs : List Char) : Option (List Char) :=
  match cs with
  | c :: _ => if c.isDigit then some (cs.dropWhile Char.isDigit) else none
  | [] => none

/-- Passes over a fraction, if there is one. -/
def afterFraction? : List Char → Option (List Char)
  | '.' :: cs => afterDigits? cs
  | cs => some cs

/-- Passes over an exponent, if there is one. -/
def afterExponent? (cs : List Char) : Option (List Char) :=
  match cs with
  | c :: rest =>
    if c = 'e' ∨ c = 'E' then
      match rest with
      | s :: rest' => if s = '+' ∨ s = '-' then afterDigits? rest' else afterDigits? rest
      | [] => none
    else some cs
  | [] => some cs

/-- A number without a sign: a leading zero stands alone. -/
def readUnsigned (cs : List Char) : Option (Json × List Char) := do
  let digits := cs.takeWhile Char.isDigit
  let rest := cs.dropWhile Char.isDigit
  match digits with
  | [] => none
  | '0' :: _ :: _ => none
  | _ =>
    let after ← afterExponent? (← afterFraction? rest)
    return (if after.length = rest.length then natural (ofDecimal digits) else otherNumber, after)

def readNumber : List Char → Option (Json × List Char)
  | '-' :: cs => (readUnsigned cs).map fun (_, rest) => (otherNumber, rest)
  | cs => readUnsigned cs

/-- What follows a backslash. -/
def readEscape : List Char → Option (Piece × List Char)
  | 'u' :: a :: b :: c :: d :: rest => do
    let v := (((← hexValue? a) * 16 + (← hexValue? b)) * 16 + (← hexValue? c)) * 16 + (← hexValue? d)
    return (.escaped v, rest)
  | '"' :: rest => some (.escaped 0x22, rest)
  | '\\' :: rest => some (.escaped 0x5C, rest)
  | '/' :: rest => some (.escaped 0x2F, rest)
  | 'b' :: rest => some (.escaped 0x08, rest)
  | 'f' :: rest => some (.escaped 0x0C, rest)
  | 'n' :: rest => some (.escaped 0x0A, rest)
  | 'r' :: rest => some (.escaped 0x0D, rest)
  | 't' :: rest => some (.escaped 0x09, rest)
  | _ => none

/-- A text after its opening quote; every turn takes a character, so `fuel` is their number. -/
def readPieces : (fuel : Nat) → List Char → Option (List Piece × List Char)
  | 0, _ => none
  | _ + 1, [] => none
  | _ + 1, '"' :: rest => some ([], rest)
  | fuel + 1, '\\' :: rest => do
    let (piece, rest) ← readEscape rest
    let (pieces, rest) ← readPieces fuel rest
    return (piece :: pieces, rest)
  | fuel + 1, c :: rest => do
    let (pieces, rest) ← readPieces fuel rest
    return (.plain c :: pieces, rest)

def readText (cs : List Char) : Option (List Piece × List Char) := readPieces (cs.length + 1) cs

mutual

/-- A value, with blanks in front of it. -/
def readValue : (fuel : Nat) → List Char → Option (Json × List Char)
  | 0, _ => none
  | fuel + 1, cs =>
    match skipBlanks cs with
    | 'n' :: rest => (afterWord? ['u', 'l', 'l'] rest).map (null, ·)
    | 't' :: rest => (afterWord? ['r', 'u', 'e'] rest).map (bool true, ·)
    | 'f' :: rest => (afterWord? ['a', 'l', 's', 'e'] rest).map (bool false, ·)
    | '"' :: rest => (readText rest).map fun (pieces, rest) => (text pieces, rest)
    | '[' :: rest =>
      match skipBlanks rest with
      | ']' :: rest => some (array [], rest)
      | rest => (readItems fuel rest).map fun (items, rest) => (array items, rest)
    | '\x7b' :: rest =>
      match skipBlanks rest with
      | '\x7d' :: rest => some (object [], rest)
      | rest => (readMembers fuel rest).map fun (members, rest) => (object members, rest)
    | cs => readNumber cs

/-- One item of an array at least, up to the closing bracket. -/
def readItems : (fuel : Nat) → List Char → Option (List Json × List Char)
  | 0, _ => none
  | fuel + 1, cs => do
    let (item, rest) ← readValue fuel cs
    match skipBlanks rest with
    | ']' :: rest => return ([item], rest)
    | ',' :: rest =>
      let (items, rest) ← readItems fuel rest
      return (item :: items, rest)
    | _ => none

/-- One member of an object at least, up to the closing brace. -/
def readMembers : (fuel : Nat) → List Char → Option (List (List Piece × Json) × List Char)
  | 0, _ => none
  | fuel + 1, cs =>
    match skipBlanks cs with
    | '"' :: rest => do
      let (name, rest) ← readText rest
      match skipBlanks rest with
      | ':' :: rest =>
        let (value, rest) ← readValue fuel rest
        match skipBlanks rest with
        | '\x7d' :: rest => return ([(name, value)], rest)
        | ',' :: rest =>
          let (members, rest) ← readMembers fuel rest
          return ((name, value) :: members, rest)
        | _ => none
      | _ => none
    | _ => none

end

/-- Reads a whole text: a value and nothing but blanks around it. -/
def readAll (cs : List Char) : Option Json := do
  let (j, rest) ← readValue (2 * cs.length + 2) cs
  if (skipBlanks rest).isEmpty then some j else none

def parse (s : String) : Option Json := readAll s.toList

end QuorumChain.Json
