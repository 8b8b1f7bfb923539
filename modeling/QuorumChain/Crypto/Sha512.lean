import QuorumChain.Bytes

/-!
The SHA-512 hash.
-/

namespace QuorumChain.Sha512

abbrev Digest := Vector UInt64 8

abbrev BlockWords := Vector UInt64 16

def iv : Digest :=
  #v[0x6a09e667f3bcc908, 0xbb67ae8584caa73b, 0x3c6ef372fe94f82b, 0xa54ff53a5f1d36f1,
    0x510e527fade682d1, 0x9b05688c2b3e6c1f, 0x1f83d9abfb41bd6b, 0x5be0cd19137e2179]

def roundConstants : List UInt64 :=
  [0x428a2f98d728ae22, 0x7137449123ef65cd, 0xb5c0fbcfec4d3b2f, 0xe9b5dba58189dbbc,
    0x3956c25bf348b538, 0x59f111f1b605d019, 0x923f82a4af194f9b, 0xab1c5ed5da6d8118,
    0xd807aa98a3030242, 0x12835b0145706fbe, 0x243185be4ee4b28c, 0x550c7dc3d5ffb4e2,
    0x72be5d74f27b896f, 0x80deb1fe3b1696b1, 0x9bdc06a725c71235, 0xc19bf174cf692694,
    0xe49b69c19ef14ad2, 0xefbe4786384f25e3, 0x0fc19dc68b8cd5b5, 0x240ca1cc77ac9c65,
    0x2de92c6f592b0275, 0x4a7484aa6ea6e483, 0x5cb0a9dcbd41fbd4, 0x76f988da831153b5,
    0x983e5152ee66dfab, 0xa831c66d2db43210, 0xb00327c898fb213f, 0xbf597fc7beef0ee4,
    0xc6e00bf33da88fc2, 0xd5a79147930aa725, 0x06ca6351e003826f, 0x142929670a0e6e70,
    0x27b70a8546d22ffc, 0x2e1b21385c26c926, 0x4d2c6dfc5ac42aed, 0x53380d139d95b3df,
    0x650a73548baf63de, 0x766a0abb3c77b2a8, 0x81c2c92e47edaee6, 0x92722c851482353b,
    0xa2bfe8a14cf10364, 0xa81a664bbc423001, 0xc24b8b70d0f89791, 0xc76c51a30654be30,
    0xd192e819d6ef5218, 0xd69906245565a910, 0xf40e35855771202a, 0x106aa07032bbd1b8,
    0x19a4c116b8d2d0c8, 0x1e376c085141ab53, 0x2748774cdf8eeb99, 0x34b0bcb5e19b48a8,
    0x391c0cb3c5c95a63, 0x4ed8aa4ae3418acb, 0x5b9cca4f7763e373, 0x682e6ff3d6b2b8a3,
    0x748f82ee5defb2fc, 0x78a5636f43172f60, 0x84c87814a1f0ab72, 0x8cc702081a6439ec,
    0x90befffa23631e28, 0xa4506cebde82bde9, 0xbef9a3f7b2c67915, 0xc67178f2e372532b,
    0xca273eceea26619c, 0xd186b8c721c0c207, 0xeada7dd6cde0eb1e, 0xf57d4f7fee6ed178,
    0x06f067aa72176fba, 0x0a637dc5a2c898a6, 0x113f9804bef90dae, 0x1b710b35131c471b,
    0x28db77f523047d84, 0x32caab7b40c72493, 0x3c9ebe0a15c9bebc, 0x431d67c49c100d4c,
    0x4cc5d4becb3e42b6, 0x597f299cfc657e2a, 0x5fcb6fab3ad6faec, 0x6c44198c4a475817]

def rotateRight (x k : UInt64) : UInt64 := (x >>> k) ||| (x <<< (64 - k))

/-- The next word of the schedule after the sixteen last ones. -/
def nextWord (w : BlockWords) : UInt64 :=
  let word (k : Nat) : UInt64 := w.toArray.getD k 0
  let s0 := rotateRight (word 1) 1 ^^^ rotateRight (word 1) 8 ^^^ (word 1 >>> 7)
  let s1 := rotateRight (word 14) 19 ^^^ rotateRight (word 14) 61 ^^^ (word 14 >>> 6)
  word 0 + s0 + word 9 + s1

/-- Drops the oldest word of the schedule for the next one. -/
def advance (w : BlockWords) : BlockWords :=
  let x := nextWord w
  Vector.ofFn fun i => if h : i.val + 1 < 16 then w[i.val + 1] else x

/-- One round with its constant and its word of the schedule. -/
def round (s : Digest) (k w : UInt64) : Digest :=
  let word (i : Fin 8) : UInt64 := s.get i
  let s1 := rotateRight (word 4) 14 ^^^ rotateRight (word 4) 18 ^^^ rotateRight (word 4) 41
  let ch := (word 4 &&& word 5) ^^^ (~~~word 4 &&& word 6)
  let t1 := word 7 + s1 + ch + k + w
  let s0 := rotateRight (word 0) 28 ^^^ rotateRight (word 0) 34 ^^^ rotateRight (word 0) 39
  let maj := (word 0 &&& word 1) ^^^ (word 0 &&& word 2) ^^^ (word 1 &&& word 2)
  #v[t1 + s0 + maj, word 0, word 1, word 2, word 3 + t1, word 4, word 5, word 6]

def rounds : List UInt64 → Digest → BlockWords → Digest
  | [], s, _ => s
  | k :: ks, s, w => rounds ks (round s k w[0]) (advance w)

def compress (h : Digest) (w : BlockWords) : Digest :=
  let s := rounds roundConstants h w
  Vector.ofFn fun i : Fin 8 => h[i] + s[i]

def foldWord (bs : List UInt8) : UInt64 :=
  bs.foldl (fun acc b => (acc <<< 8) ||| b.toUInt64) 0

/-- Hashes the whole blocks of a padded message. -/
def hashBlocks (h : Digest) (bs : List UInt8) : Digest :=
  if hlen : bs.length < 128 then h
  else
    let block := bs.take 128
    hashBlocks (compress h (Vector.ofFn fun i => foldWord ((block.drop (8 * i.val)).take 8))) (bs.drop 128)
termination_by bs.length
decreasing_by simp only [List.length_drop]; omega

/-- A one bit, zeros and the length in bits, up to a whole number of blocks. -/
def padded (message : List UInt8) : List UInt8 :=
  let len := message.length
  message ++ 0x80 :: List.replicate ((239 - len % 128) % 128) 0 ++ bytesOfNat 16 (8 * len)

def wordBytes (w : UInt64) : List UInt8 := bytesOfNat 8 w.toNat

def hash (message : List UInt8) : List UInt8 :=
  (hashBlocks iv (padded message)).toList.flatMap wordBytes

end QuorumChain.Sha512
