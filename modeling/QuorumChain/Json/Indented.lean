import QuorumChain.Json.Printer

/-!
JSON texts of values for reading: each item and each member on a line of its own, two spaces further
in than what it belongs to.
-/

namespace QuorumChain.Json

/-- The start of a line at some depth. -/
def lineStart (depth : Nat) : List Char := '\n' :: List.replicate (2 * depth) ' '

mutual

def printAt (depth : Nat) : Json → List Char
  | array [] => ['[', ']']
  | array (j :: rest) => '[' :: printItemsAt depth (j :: rest) ++ lineStart depth ++ [']']
  | object [] => ['\x7b', '\x7d']
  | object (m :: rest) => '\x7b' :: printMembersAt depth (m :: rest) ++ lineStart depth ++ ['\x7d']
  | j => print j

/-- The items of an array, each on a line, with commas between them. -/
def printItemsAt (depth : Nat) : List Json → List Char
  | [] => []
  | [j] => lineStart (depth + 1) ++ printAt (depth + 1) j
  | j :: rest => lineStart (depth + 1) ++ printAt (depth + 1) j ++ ',' :: printItemsAt depth rest

/-- The members of an object, each on a line, with commas between them. -/
def printMembersAt (depth : Nat) : List (List Piece × Json) → List Char
  | [] => []
  | [(name, j)] => lineStart (depth + 1) ++ printText name ++ ':' :: ' ' :: printAt (depth + 1) j
  | (name, j) :: rest =>
    lineStart (depth + 1) ++ printText name ++ ':' :: ' ' :: printAt (depth + 1) j ++
      ',' :: printMembersAt depth rest

end

/-- The text on several lines. -/
def renderIndented (j : Json) : String := String.ofList (printAt 0 j)

end QuorumChain.Json
