import QuorumChain.Status

/-!
What validators of one chain say to each other.
-/

namespace QuorumChain

inductive Message where
  /-- the sender's own status -/
  | status (s : Status)
  | getUnfinishedBlock (id : BlockId)
  /-- a proposal -/
  | unfinishedBlock (b : Block)
  | getBlockAtHeight (height : Height)
  /-- a committed block, in answer to a request for a height -/
  | completeBlock (height : Height) (b : WitnessedBlock)
  | getBlockSignature (id : BlockId)
  | blockSignature (id : BlockId) (signature : CommitSignature)
deriving DecidableEq

/-- A short name for each sort of message. -/
def Message.kind : Message → String
  | .status _ => "status"
  | .getUnfinishedBlock _ => "get-unfinished-block"
  | .unfinishedBlock _ => "unfinished-block"
  | .getBlockAtHeight _ => "get-block-at-height"
  | .completeBlock _ _ => "complete-block"
  | .getBlockSignature _ => "get-block-signature"
  | .blockSignature _ _ => "block-signature"

end QuorumChain
