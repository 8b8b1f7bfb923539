import QuorumChain.Intent
import QuorumChain.Message

/-!
What a validator asks its peers for to get on with an intent.
-/

namespace QuorumChain

namespace Intent

/-- The statuses of the others, with their positions. -/
def others (statuses : List Status) (me : PeerIndex) : List (PeerIndex × Status) :=
  (statuses.zipIdx.filterMap fun (s, i) => (PeerIndex.ofNat? i).map (·, s)).filter fun (i, _) => i ≠ me

/-- Every request that serves an intent, by ascending position. -/
def possibleRequests (intent : Intent) (statuses : List Status) (me : PeerIndex) :
    List (PeerIndex × Message) :=
  match intent with
  | fetchBlockAtHeight height =>
    ((others statuses me).filter fun (_, s) => height < s.height).map fun (i, _) =>
      (i, .getBlockAtHeight height)
  | fetchUnfinishedBlock id =>
    match statuses[me.number]? with
    | none => []
    | some own =>
      ((others statuses me).filter fun (_, s) => s.height = own.height ∧ s.block = some id).map
        fun (i, _) => (i, .getUnfinishedBlock id)
  | fetchCommitSignature id peers =>
    (peers.toList.filter (· ≠ me)).map fun i => (i, .getBlockSignature id)
  | doNothing | buildBlock | commitBlock => []

/-- Is one peer enough to serve an intent? -/
def asksOne : Intent → Bool
  | fetchBlockAtHeight _ | fetchUnfinishedBlock _ => true
  | _ => false

/-- The requests to send. Where one peer is enough, `choice` picks it. -/
def requests (intent : Intent) (statuses : List Status) (me : PeerIndex) (choice : Nat) :
    List (PeerIndex × Message) :=
  let possible := intent.possibleRequests statuses me
  if intent.asksOne then possible[choice % possible.length]?.toList else possible

end Intent

end QuorumChain
