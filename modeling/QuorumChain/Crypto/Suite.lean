import QuorumChain.Bytes

/-!
The hash and the signature scheme that everything above is built on.
-/

namespace QuorumChain

/-- The public half of a key, by which a validator is known. -/
@[ext] structure PublicKey where
  raw : FixedBytes 32
deriving DecidableEq

/-- The secret half of a key. -/
structure SecretKey where
  seed : FixedBytes 32
deriving DecidableEq

@[ext] structure Signature where
  raw : FixedBytes 64
deriving DecidableEq

/-- A hash of byte strings and signatures over byte strings. -/
class CryptoSuite where
  hash : List UInt8 → FixedBytes 32
  publicKey : SecretKey → PublicKey
  sign : SecretKey → List UInt8 → Signature
  /-- False also for a key that is none. -/
  verify : PublicKey → List UInt8 → Signature → Bool

def SecretKey.publicKey [CryptoSuite] (key : SecretKey) : PublicKey := CryptoSuite.publicKey key

def SecretKey.sign [CryptoSuite] (key : SecretKey) (message : List UInt8) : Signature :=
  CryptoSuite.sign key message

def PublicKey.verify [CryptoSuite] (key : PublicKey) (message : List UInt8) (sig : Signature) : Bool :=
  CryptoSuite.verify key message sig

/-- Secret keys show nothing of themselves. -/
def SecretKey.debugText (_ : SecretKey) : String := "PeerSeckey(..)"

end QuorumChain
