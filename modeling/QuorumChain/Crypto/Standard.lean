import QuorumChain.Crypto.Blake3
import QuorumChain.Crypto.Ed25519
import QuorumChain.Crypto.Suite

/-!
The suite in use: BLAKE3 and Ed25519.
-/

namespace QuorumChain

@[reducible] def standardSuite : CryptoSuite where
  hash := Blake3.hash
  publicKey key := ⟨Ed25519.publicKey key.seed⟩
  sign key message := ⟨Ed25519.sign key.seed message⟩
  verify key message sig := Ed25519.verify key.raw message sig.raw

end QuorumChain
