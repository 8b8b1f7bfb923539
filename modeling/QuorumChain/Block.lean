import QuorumChain.Bytes.Hex
import QuorumChain.Counter
import QuorumChain.Crypto.Suite

/-!
Blocks, the signatures that validators give over them, and the witnesses made of signatures.
-/

namespace QuorumChain

/-- The identifier of a block: the hash of its header. -/
@[ext] structure BlockId where
  raw : FixedBytes 32
deriving DecidableEq

/-- What a header says of its transactions. -/
@[ext] structure PayloadHash where
  raw : FixedBytes 32
deriving DecidableEq

/-- Bytes that consensus only puts into an order. -/
@[ext] structure Transaction where
  bytes : List UInt8
deriving DecidableEq

@[ext] structure Header where
  height : Height
  /-- none at height 0 only -/
  parent : Option BlockId
  timestamp : Timestamp
  payloadLength : UInt32
  payloadHash : PayloadHash
deriving DecidableEq

/-- What the primary of a round proposes. -/
@[ext] structure Block where
  header : Header
  transactions : List Transaction
deriving DecidableEq

/-- The signature of a validator over a block that it will commit. -/
@[ext] structure CommitSignature where
  signer : PublicKey
  signature : Signature
deriving DecidableEq

/-- Signatures that show a quorum's will to commit a block. -/
@[ext] structure Witness where
  signatures : List CommitSignature
deriving DecidableEq

/-- A committed block. -/
@[ext] structure WitnessedBlock where
  block : Block
  witness : Witness
deriving DecidableEq

def Block.height (b : Block) : Height := b.header.height

instance : ToString BlockId := ⟨fun id => id.raw.toHex⟩

instance : ToString PublicKey := ⟨fun key => key.raw.toHex⟩

end QuorumChain
