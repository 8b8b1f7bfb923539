/-!
Texts of values that may be missing, and of errors with their causes.
-/

namespace QuorumChain

/-- A text, or a dash in its place. -/
def optionText : Option String → String
  | some t => t
  | none => "-"

/-- An error and its causes, the outermost first, on one line. -/
def causeChainText (messages : List String) : String :=
  String.intercalate ": " messages

end QuorumChain
