import QuorumChain.Wire.Forms

/-!
Identifiers of blocks, and signatures and witnesses over them.

An identifier is a hash of the header, the header holds a hash of the transactions; so equal
identifiers mean equal blocks as far as the hash keeps inputs apart.
-/

namespace QuorumChain

variable [CryptoSuite]

/-- The bytes that a payload hash is made of: each transaction after its length. -/
def payloadBytes (transactions : List Transaction) : List UInt8 :=
  transactions.flatMap fun tx =>
    bytesOfNat 8 (min tx.bytes.length (2 ^ 64 - 1)) ++ tx.bytes

def payloadHash (transactions : List Transaction) : PayloadHash :=
  ⟨CryptoSuite.hash (payloadBytes transactions)⟩

/-- The number of transactions as far as a header can say it. -/
def payloadLength (transactions : List Transaction) : UInt32 :=
  UInt32.ofNat (min transactions.length (2 ^ 32 - 1))

def Header.id (h : Header) : BlockId := ⟨CryptoSuite.hash (Header.codec.encode h)⟩

namespace Block

/-- The block of some transactions on top of a parent. -/
def build (height : Height) (parent : Option BlockId) (timestamp : Timestamp)
    (transactions : List Transaction) : Block :=
  ⟨⟨height, parent, timestamp, payloadLength transactions, payloadHash transactions⟩, transactions⟩

def id (b : Block) : BlockId := b.header.id

/-- Are the transactions those that the header speaks of? -/
def isConsistent (b : Block) : Bool :=
  b.transactions.length == b.header.payloadLength.toNat &&
    payloadHash b.transactions == b.header.payloadHash

end Block

def WitnessedBlock.id (b : WitnessedBlock) : BlockId := b.block.id

namespace BlockId

def hash (id : BlockId) : FixedBytes 32 := CryptoSuite.hash (BlockId.codec.encode id)

/-- What is signed in place of an identifier. The tag keeps it apart from all else that is signed. -/
def signedHash (id : BlockId) : FixedBytes 32 :=
  CryptoSuite.hash ("ebftcmit".toUTF8.toList ++ id.hash.bytes)

end BlockId

namespace CommitSignature

def sign (id : BlockId) (key : SecretKey) : CommitSignature :=
  ⟨key.publicKey, key.sign id.signedHash.bytes⟩

def isValid (s : CommitSignature) (id : BlockId) : Bool :=
  s.signer.verify id.signedHash.bytes s.signature

end CommitSignature

/-- What is wrong with a witness. -/
inductive WitnessError where
  | notEnoughSignatures (got required : Nat)
  | unknownSigner (signer : PublicKey)
  | duplicateSigner (signer : PublicKey)
  | invalidSignature (signer : PublicKey)
deriving DecidableEq

/-- A short name for each sort of error. -/
def WitnessError.kind : WitnessError → String
  | .notEnoughSignatures _ _ => "NotEnoughSignatures"
  | .unknownSigner _ => "UnknownSigner"
  | .duplicateSigner _ => "DuplicateSigner"
  | .invalidSignature _ => "InvalidSignature"

def WitnessError.message : WitnessError → String
  | .notEnoughSignatures got required => s!"Not enough signatures: {got} < {required}"
  | .unknownSigner signer => s!"Signer not in validator set: {signer}"
  | .duplicateSigner signer => s!"Duplicate signer: {signer}"
  | .invalidSignature signer => s!"Invalid signature from: {signer}"

namespace Witness

/-- Checks signatures in turn; `seen` are the signers before them. -/
def verifySigners (id : BlockId) (peers : List PublicKey) :
    (seen : List PublicKey) → List CommitSignature → Except WitnessError Unit
  | _, [] => .ok ()
  | seen, s :: rest =>
    if s.signer ∉ peers then .error (.unknownSigner s.signer)
    else if s.signer ∈ seen then .error (.duplicateSigner s.signer)
    else if !s.isValid id then .error (.invalidSignature s.signer)
    else verifySigners id peers (s.signer :: seen) rest

/-- Does a witness hold valid signatures of enough different validators? -/
def verify (w : Witness) (id : BlockId) (peers : List PublicKey) (threshold : Nat) :
    Except WitnessError Unit :=
  if w.signatures.length < threshold then
    .error (.notEnoughSignatures w.signatures.length threshold)
  else verifySigners id peers [] w.signatures

end Witness

end QuorumChain
