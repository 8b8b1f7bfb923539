import QuorumChain.Block
import QuorumChain.Peer.Set

/-!
What a validator means to do next.
-/

namespace QuorumChain

/-- The next action of a validator. -/
inductive Intent where
  | doNothing
  /-- is the primary and should build a block -/
  | buildBlock
  /-- has signatures of a quorum -/
  | commitBlock
  /-- asks for the block that the primary holds -/
  | fetchUnfinishedBlock (id : BlockId)
  /-- fell behind and asks for a committed block -/
  | fetchBlockAtHeight (height : Height)
  /-- asks peers for their signatures over the held block -/
  | fetchCommitSignature (id : BlockId) (peers : PeerSet)
deriving DecidableEq

namespace Intent

instance : Inhabited Intent := ⟨doNothing⟩

/-- A short name for each sort of intent. -/
def kind : Intent → String
  | doNothing => "DoNothing"
  | buildBlock => "BuildBlock"
  | commitBlock => "CommitBlock"
  | fetchUnfinishedBlock _ => "FetchUnfinishedBlock"
  | fetchBlockAtHeight _ => "FetchBlockAtHeight"
  | fetchCommitSignature _ _ => "FetchCommitSignature"

def text : Intent → String
  | doNothing => "do-nothing"
  | buildBlock => "build-block"
  | commitBlock => "commit-block"
  | fetchUnfinishedBlock id => s!"fetch-unfinished-block({id.raw.toShortHex})"
  | fetchBlockAtHeight height => s!"fetch-block-at-height({height})"
  | fetchCommitSignature id peers => s!"fetch-commit-signature({id.raw.toShortHex}, {peers})"

end Intent

end QuorumChain
