/-!
Breakdowns: conditions under which a validator has no next state.
-/

namespace QuorumChain

/-- A condition that what runs into it does not survive. -/
inductive Fault where
  | heightOverflow
  | roundOverflow
  | serialOverflow
  | clockOutOfRange
  | tooManyValidators
  | noValidators
deriving DecidableEq, Repr

end QuorumChain
