import QuorumChain.Block

/-!
What a validator says of itself.
-/

namespace QuorumChain

/-- How far a validator is with the block of its height. -/
inductive Phase where
  /-- has no block -/
  | waitBlock
  /-- holds a block and has signed it -/
  | haveBlock
  /-- saw a quorum hold the block and collects signatures -/
  | prepared
deriving DecidableEq, Inhabited

namespace Phase

/-- The place of a phase in the course of a round. -/
def rank : Phase → Nat
  | waitBlock => 0
  | haveBlock => 1
  | prepared => 2

def text : Phase → String
  | waitBlock => "wait-block"
  | haveBlock => "have-block"
  | prepared => "prepared"

end Phase

@[ext] structure Status where
  height : Height
  round : Round
  phase : Phase
  block : Option BlockId
  revolting : Bool
  /-- grows with every change, so that reports can be put in order -/
  serial : Serial
deriving DecidableEq

namespace Status

/-- The status of a validator that starts on a height. -/
def start (height : Height) (serial : Serial) : Status :=
  ⟨height, .zero, .waitBlock, none, false, serial⟩

/-- What is believed of a validator that was never heard of. -/
def unknown : Status := start .zero .zero

instance : Inhabited Status := ⟨unknown⟩

/-- Does a report replace what is believed so far? -/
def isNewerThan (s other : Status) : Bool :=
  other.serial < s.serial || other.height < s.height ||
    (other.height == s.height && other.round < s.round)

def text (s : Status) : String :=
  let id := match s.block with
    | some id => s!" rid={id.raw.toShortHex}"
    | none => ""
  let revolting := if s.revolting then " revolting" else ""
  s!"h={s.height} r={s.round} {s.phase.text}" ++ id ++ revolting ++ s!" s={s.serial}"

end Status

end QuorumChain
