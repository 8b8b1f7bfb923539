import QuorumChain.Intent
import QuorumChain.Status

/-!
The view that a validator has of its chain: what it believes of every validator, itself included,
and the signatures it has for the block it holds. The intent is derived from both.
-/

namespace QuorumChain

/-- The view of one of `n` validators. -/
structure View (n : ValidatorCount) where
  me : Fin n.total
  /-- by position, the own status included -/
  statuses : Vector Status n.total
  /-- by position, over the block in the own status -/
  signatures : Vector (Option CommitSignature) n.total
  intent : Intent
  /-- the most steps in which the intent is derived anew -/
  cap : Nat
  /-- how often that many steps were too few -/
  capHits : Nat

/-- Why there is no view to start with. -/
inductive StartError where
  | emptyValidatorSet
  | ownIndexOutOfRange (me : PeerIndex) (n : ValidatorCount)
deriving DecidableEq

def StartError.message : StartError → String
  | .emptyValidatorSet => "EmptyValidatorSet"
  | .ownIndexOutOfRange me n => s!"Own index {me} out of range for {n.total} validators"

namespace View

variable {n : ValidatorCount}

/-- The view of a validator that is about to work on a height and has heard of nobody. -/
def start (n : ValidatorCount) (me : PeerIndex) (height : Height) (cap : Nat) (serial : Serial) :
    Except StartError (View n) :=
  if n.total = 0 then .error .emptyValidatorSet
  else
    match n.memberAt? me with
    | none => .error (.ownIndexOutOfRange me n)
    | some me => .ok {
        me
        statuses := n.update (Vector.replicate n.total .unknown) me (.start height serial)
        signatures := Vector.replicate n.total none
        intent := .doNothing
        cap
        capHits := 0 }

def own (v : View n) : Status := v.statuses[v.me]

def setOwn (v : View n) (s : Status) : View n := { v with statuses := n.update v.statuses v.me s }

def withIntent (v : View n) (intent : Intent) : View n := { v with intent }

/-- How many validators have to agree. -/
def quorum (_ : View n) : Nat := n.threshold

/-- How many validators are believed to be in some state. -/
def count (v : View n) (p : Status → Bool) : Nat := v.statuses.countP p

theorem size_pos (v : View n) : 0 < n.total := Nat.zero_lt_of_lt v.me.isLt

/-- Whose turn it is to build the block. -/
def primary (v : View n) : Fin n.total := n.primary v.size_pos v.own.height v.own.round

def isPrimary (v : View n) : Bool := v.primary = v.me

def myIndex (v : View n) : PeerIndex := n.indexOf v.me

def mySignature (v : View n) : Option CommitSignature := v.signatures[v.me]

/-- The signatures there are, by ascending position. -/
def recorded (v : View n) : List CommitSignature := v.signatures.toList.filterMap id

/-- The positions of the signatures there are, ascending. -/
def recordedAt (v : View n) : List (Fin n.total) :=
  (List.finRange n.total).filter fun i => v.signatures[i].isSome

def clearSignatures (v : View n) : View n := { v with signatures := Vector.replicate n.total none }

end View

/-- A fault in the middle of a change, with what was changed by then. -/
structure Breakdown (n : ValidatorCount) where
  fault : Fault
  view : View n

/-- The outcome of a change that may break down. -/
abbrev Change (n : ValidatorCount) := Except (Breakdown n)

namespace View

variable {n : ValidatorCount}

/-- Counts a change of the own status. -/
def bump (v : View n) : Change n (View n) :=
  match v.own.serial.next with
  | some serial => .ok (v.setOwn { v.own with serial })
  | none => .error ⟨.serialOverflow, v⟩

def nextRound (v : View n) : Change n (View n) :=
  match v.own.round.next with
  | some round => .ok (v.setOwn { v.own with round })
  | none => .error ⟨.roundOverflow, v⟩

def nextHeight (v : View n) : Change n (View n) :=
  match v.own.height.next with
  | some height => .ok (v.setOwn { v.own with height })
  | none => .error ⟨.heightOverflow, v⟩

end View

end QuorumChain
