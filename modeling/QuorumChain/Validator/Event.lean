import QuorumChain.Validator

/-!
What can happen to a validator. Any order is possible, and whatever happens is either an event or a
change of the engine from outside.
-/

namespace QuorumChain

inductive ValidatorEvent where
  /-- a moment passes -/
  | tick (now : Instant) (clock : WallClock) (choice : Nat)
  /-- a message comes, said to be of a peer -/
  | message (sender : PeerIndex) (m : Message)
  /-- a proposal from elsewhere than a message -/
  | proposal (b : Block)
  /-- a committed block from elsewhere than a message -/
  | committed (height : Height) (b : WitnessedBlock)
  /-- a validator's signature from elsewhere than a message -/
  | signature (sender : PeerIndex) (id : BlockId) (s : CommitSignature)
  | revolt
  /-- somebody wants to know the intent -/
  | intentWanted (clock : WallClock)
  /-- issued work gets done -/
  | workDone (clock : WallClock)
  /-- the result of work is there -/
  | resultTaken
  /-- blocks are asked for up to a height -/
  | wanted (height : Height)
  | shutdown (clock : WallClock)
deriving DecidableEq

namespace Validator

variable {n : ValidatorCount} {σ β ω ε : Type} [BlockEngine σ β ω ε] [CryptoSuite]

/-- What a running validator does at an event: the messages it sends, and the validator after it. -/
def react (v : Validator n σ β ω ε) :
    ValidatorEvent → Except Fault (List Outbound × Validator n σ β ω ε)
  | .tick now clock choice => v.tick now clock choice
  | .message sender m => v.receive sender m
  | .proposal b => do return ([], ← v.takeProposal b)
  | .committed height b => do return ([], ← v.takeCommitted height b)
  | .signature sender id s => do return ([], ← v.takeSignature sender id s)
  | .revolt => do return ([], ← v.handleView .revolt)
  | .intentWanted clock => do return ([], (← v.intentNow clock).2)
  | .workDone clock => .ok ([], v.runWork clock)
  | .resultTaken => do return ([], ← v.takeResult)
  | .wanted height => .ok ([], v.buildUpTo height)
  | .shutdown clock => .ok ([], v.shutdown clock)

/-- What a validator does at an event. One that has no next state halts in the state that it was in,
and one that is stopped does nothing. -/
def handle (e : ValidatorEvent) (v : Validator n σ β ω ε) :
    List Outbound × Validator n σ β ω ε :=
  if v.running then
    match v.react e with
    | .ok next => next
    | .error _ => ([], v.halt)
  else ([], v)

/-- Hands an event to a validator, with an error if that is stopped. -/
def tell (e : ValidatorEvent) (v : Validator n σ β ω ε) :
    Except ValidatorError (List Outbound × Validator n σ β ω ε) :=
  if v.running then .ok (v.handle e) else .error .gone

/-- Asks a validator for its intent. One that is stopped does not answer, nor does one that stops at
the question. -/
def askIntent (clock : WallClock) (v : Validator n σ β ω ε) :
    Except ValidatorError Intent × Validator n σ β ω ε :=
  if v.running then
    match v.intentNow clock with
    | .ok (intent, v) => (.ok intent, v)
    | .error _ => (.error .gone, v.halt)
  else (.error .gone, v)

end Validator

end QuorumChain
