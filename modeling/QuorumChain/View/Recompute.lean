import QuorumChain.View

/-!
Deriving the intent: steps, each of which changes something, until none does.
-/

namespace QuorumChain

/-- What a part of a step leaves to the parts after it. -/
inductive Stage (α : Type) where
  /-- nothing decided -/
  | undecided
  /-- nothing left to change -/
  | settled
  | changed (a : α)

namespace View

variable {n : ValidatorCount}

/-- Gives up a block that is held but not prepared. -/
def dropBlock (v : View n) : Change n (View n) := do
  let v ← (v.setOwn { v.own with phase := .waitBlock, block := none }).bump
  return v.clearSignatures

/-- Gives up the block if it is held but not prepared. -/
def dropHeldBlock (v : View n) : Change n (View n) :=
  if v.own.phase = .haveBlock then v.dropBlock else .ok v

/-- Too few are left at the own height, and some are higher. -/
def isBehind (v : View n) : Bool :=
  v.count (fun s => s.height = v.own.height) < v.quorum &&
    0 < v.count (fun s => v.own.height < s.height)

/-- Falls back to asking for committed blocks. -/
def catchUp (v : View n) : Change n (Stage (View n)) := do
  if !v.isBehind then return .undecided
  let wanted := .fetchBlockAtHeight v.own.height
  match v.intent with
  | .fetchBlockAtHeight _ =>
    if v.intent = wanted then return .settled else return .changed (v.withIntent wanted)
  | _ =>
    return .changed ((← v.dropHeldBlock).withIntent wanted)

/-- Does a validator want the round of a status to end, or is it past it? -/
def supportsRevolt (own s : Status) : Bool :=
  s.height = own.height && (own.round < s.round || (s.round = own.round && s.revolting))

/-- Goes to the next round with a quorum. A prepared block is kept: others may be committing it. -/
def endRound (v : View n) : Change n (Stage (View n)) := do
  if v.count (supportsRevolt v.own) < v.quorum then return .undecided
  let v ← v.dropHeldBlock
  let v ← (v.setOwn { v.own with revolting := false }).nextRound
  return .changed (← v.bump)

/-- The view with an intent, if it had another one. -/
def changeIntent? (v : View n) (intent : Intent) : Option (View n) :=
  if v.intent = intent then none else some (v.withIntent intent)

/-- Builds a block, or asks for that of the primary. -/
def awaitBlock (v : View n) : Option (View n) :=
  if v.isPrimary then v.changeIntent? .buildBlock
  else
    let primary := v.statuses[v.primary]
    match primary.block with
    | some id =>
      if primary.height = v.own.height then v.changeIntent? (.fetchUnfinishedBlock id)
      else v.changeIntent? .doNothing
    | none => v.changeIntent? .doNothing

/-- Does a validator hold the block of a status? -/
def holdsSame (own s : Status) : Bool :=
  s.height = own.height && s.block = own.block && (s.phase = .haveBlock || s.phase = .prepared)

/-- Is prepared once a quorum holds the block. -/
def prepare (v : View n) : Change n (Option (View n)) := do
  if v.count (holdsSame v.own) < v.quorum then return none
  return some (← (v.setOwn { v.own with phase := .prepared }).bump)

/-- Can a validator give its signature over a block, as far as its status tells? -/
def canSign (own : Status) (id : BlockId) (s : Status) : Bool :=
  own.height < s.height || (s.height = own.height && s.phase = .prepared && s.block = some id)

/-- The validators to ask for a signature over a block. -/
def signersToAsk (v : View n) (id : BlockId) : PeerSet :=
  .ofList <| ((List.finRange n.total).filter fun i =>
    v.signatures[i].isNone && canSign v.own id v.statuses[i]).map n.indexOf

/-- Commits with the signatures of a quorum, and asks for more until then. -/
def collect (v : View n) : Option (View n) :=
  if v.intent = .commitBlock then none
  else if v.quorum ≤ v.recorded.length then some (v.withIntent .commitBlock)
  else
    match v.own.block with
    | none => v.changeIntent? .doNothing
    | some id =>
      let peers := v.signersToAsk id
      if peers.isEmpty then v.changeIntent? .doNothing
      else v.changeIntent? (.fetchCommitSignature id peers)

/-- What a validator does by its phase alone. -/
def proceed (v : View n) : Change n (Option (View n)) :=
  match v.own.phase with
  | .waitBlock => .ok v.awaitBlock
  | .haveBlock => v.prepare
  | .prepared => .ok v.collect

/-- One step; none if there is nothing to change. A prepared validator does not catch up: a quorum
was at its height, and only signatures are missing. -/
def step (v : View n) : Change n (Option (View n)) := do
  match ← (if v.own.phase = .prepared then pure .undecided else v.catchUp) with
  | .settled => return none
  | .changed v => return some v
  | .undecided =>
    match ← (if v.own.revolting then v.endRound else pure .undecided) with
    | .settled => return none
    | .changed v => return some v
    | .undecided => v.proceed

/-- At most so many steps. -/
def recomputeWithin : (steps : Nat) → View n → Change n (View n)
  | 0, v => .ok { v with capHits := v.capHits + 1 }
  | k + 1, v => do
    match ← v.step with
    | none => return v
    | some v => recomputeWithin k v

def recompute (v : View n) : Change n (View n) := recomputeWithin v.cap v

end View

end QuorumChain
