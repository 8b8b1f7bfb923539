import QuorumChain.Crypto.Edwards25519
import QuorumChain.Crypto.Sha512

/-!
Ed25519 signatures: a key is a 32 byte seed, a signature a point and a scalar.
-/

namespace QuorumChain.Ed25519

open Edwards25519

/-- The secret scalar: three low bits clear, bit 254 set, bit 255 clear. -/
def clamp (bs : List UInt8) : Nat :=
  let v := littleEndian bs % 2 ^ 254
  v - v % 8 + 2 ^ 254

def scalarOfHash (parts : List UInt8) : Nat := littleEndian (Sha512.hash parts) % groupOrder

def publicKey (seed : FixedBytes 32) : FixedBytes 32 :=
  FixedBytes.ofPadded 32 (scaleBase (clamp ((Sha512.hash seed.bytes).take 32))).toBytes

def sign (seed : FixedBytes 32) (message : List UInt8) : FixedBytes 64 :=
  let digest := Sha512.hash seed.bytes
  let s := clamp (digest.take 32)
  let a := (scaleBase s).toBytes
  let r := scalarOfHash (digest.drop 32 ++ message)
  let rBytes := (scaleBase r).toBytes
  let k := scalarOfHash (rBytes ++ a ++ message)
  FixedBytes.ofPadded 64 (rBytes ++ (bytesOfNat 32 ((r + k * s) % groupOrder)).reverse)

/-- The scalar has to be reduced and the point has to be written as the equation yields it; the key
may be any point, also one of small order. -/
def verify (key : FixedBytes 32) (message : List UInt8) (signature : FixedBytes 64) : Bool :=
  let rBytes := signature.bytes.take 32
  let s := littleEndian (signature.bytes.drop 32)
  match Point.ofBytes? key.bytes with
  | none => false
  | some a =>
    let k := scalarOfHash (rBytes ++ key.bytes ++ message)
    s < groupOrder && (scaleBaseAdd s k a.neg).toBytes == rBytes

end QuorumChain.Ed25519
