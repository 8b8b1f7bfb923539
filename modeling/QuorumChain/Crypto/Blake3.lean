import QuorumChain.Bytes

/-!
The BLAKE3 hash with a 32 byte result. A message is cut into chunks of 1024 bytes and blocks of
64 bytes; chunk values are joined in pairs until one root is left.
-/

namespace QuorumChain.Blake3

/-- The eight words that chain one compression to the next. -/
abbrev ChainValue := Vector UInt32 8

abbrev BlockWords := Vector UInt32 16

def iv : ChainValue :=
  #v[0x6A09E667, 0xBB67AE85, 0x3C6EF372, 0xA54FF53A, 0x510E527F, 0x9B05688C, 0x1F83D9AB, 0x5BE0CD19]

/-- The order in which a round takes the words of the round before. -/
def wordOrder : Vector (Fin 16) 16 :=
  #v[2, 6, 3, 10, 7, 0, 4, 13, 1, 11, 12, 5, 9, 14, 15, 8]

def chunkStart : UInt32 := 1
def chunkEnd : UInt32 := 2
def parentNode : UInt32 := 4
def rootNode : UInt32 := 8

def rotateRight (x : UInt32) (k : UInt32) : UInt32 := (x >>> k) ||| (x <<< (32 - k))

/-- Mixes four words of the state with two words of the message. -/
def quarter (s : BlockWords) (a b c d : Fin 16) (x y : UInt32) : BlockWords :=
  let va := s[a] + s[b] + x
  let vd := rotateRight (s[d] ^^^ va) 16
  let vc := s[c] + vd
  let vb := rotateRight (s[b] ^^^ vc) 12
  let va := va + vb + y
  let vd := rotateRight (vd ^^^ va) 8
  let vc := vc + vd
  let vb := rotateRight (vb ^^^ vc) 7
  (((s.set a va).set b vb).set c vc).set d vd

/-- One round: the columns, then the diagonals. -/
def round (s m : BlockWords) : BlockWords :=
  let s := quarter s 0 4 8 12 m[0] m[1]
  let s := quarter s 1 5 9 13 m[2] m[3]
  let s := quarter s 2 6 10 14 m[4] m[5]
  let s := quarter s 3 7 11 15 m[6] m[7]
  let s := quarter s 0 5 10 15 m[8] m[9]
  let s := quarter s 1 6 11 12 m[10] m[11]
  let s := quarter s 2 7 8 13 m[12] m[13]
  quarter s 3 4 9 14 m[14] m[15]

/-- `count` rounds, the message words reordered between them. -/
def rounds : (count : Nat) → BlockWords → BlockWords → BlockWords
  | 0, s, _ => s
  | count + 1, s, m => rounds count (round s m) (wordOrder.map fun i => m[i])

/-- The chaining value after a block of `size` bytes. -/
def compress (h : ChainValue) (m : BlockWords) (counter : UInt64) (size flags : UInt32) : ChainValue :=
  let s : BlockWords :=
    h ++ #v[iv[0], iv[1], iv[2], iv[3], counter.toUInt32, (counter >>> 32).toUInt32, size, flags]
  let s := rounds 7 s m
  Vector.ofFn fun i : Fin 8 => s[i] ^^^ s[i.val + 8]

/-- The number of four bytes, the first least significant. -/
def word (b0 b1 b2 b3 : UInt8) : UInt32 :=
  b0.toUInt32 ||| (b1.toUInt32 <<< 8) ||| (b2.toUInt32 <<< 16) ||| (b3.toUInt32 <<< 24)

/-- Words of a byte string, the last one filled up with zeros. -/
def words : List UInt8 → List UInt32
  | b0 :: b1 :: b2 :: b3 :: rest => word b0 b1 b2 b3 :: words rest
  | [b0, b1, b2] => [word b0 b1 b2 0]
  | [b0, b1] => [word b0 b1 0 0]
  | [b0] => [word b0 0 0 0]
  | [] => []

/-- The sixteen words of a block of up to 64 bytes, missing ones zero. -/
def blockWords (block : List UInt8) : BlockWords :=
  let ws := (words block).toArray
  Vector.ofFn fun i => ws.getD i 0

/-- Consecutive pieces of `size` bytes, the last one shorter unless it fits. -/
def pieces (size : Nat) (bs : List UInt8) : List (List UInt8) :=
  if _h : bs.length ≤ size ∨ size = 0 then [bs]
  else bs.take size :: pieces size (bs.drop size)
termination_by bs.length
decreasing_by simp only [List.length_drop]; omega

/-- The blocks of one chunk, chained; `flags` are added at the last block. -/
def chainBlocks (counter : UInt64) (flags : UInt32) : (start : UInt32) → ChainValue → List (List UInt8) → ChainValue
  | _, h, [] => h
  | start, h, [block] =>
    compress h (blockWords block) counter (UInt32.ofNat block.length) (start ||| chunkEnd ||| flags)
  | start, h, block :: rest =>
    chainBlocks counter flags 0 (compress h (blockWords block) counter (UInt32.ofNat block.length) start) rest

def chunkValue (counter : UInt64) (flags : UInt32) (chunk : List UInt8) : ChainValue :=
  chainBlocks counter flags chunkStart iv (pieces 64 chunk)

def parentValue (flags : UInt32) (l r : ChainValue) : ChainValue :=
  compress iv (l ++ r) 0 64 (parentNode ||| flags)

/-- Joins neighbours, an odd last value staying as it is. -/
def joinPairs : List ChainValue → List ChainValue
  | l :: r :: rest => parentValue 0 l r :: joinPairs rest
  | rest => rest

theorem length_joinPairs (vs : List ChainValue) : (joinPairs vs).length ≤ (vs.length + 1) / 2 := by
  fun_induction joinPairs vs with
  | case1 l r rest ih => simp only [List.length_cons]; omega
  | case2 rest h =>
    match rest with
    | [] => simp
    | [_] => simp
    | l :: r :: rest => exact absurd rfl (h l r rest)

/-- The root over two or more chunk values. -/
def rootValue (vs : List ChainValue) : ChainValue :=
  match vs with
  | [] => iv
  | [v] => v
  | [l, r] => parentValue rootNode l r
  | a :: b :: c :: rest => rootValue (joinPairs (a :: b :: c :: rest))
termination_by vs.length
decreasing_by
  have := length_joinPairs (a :: b :: c :: rest)
  simp only [List.length_cons] at this ⊢
  omega

/-- The four bytes of a word, the least significant first. -/
def wordBytes (w : UInt32) : List UInt8 :=
  [w.toUInt8, (w >>> 8).toUInt8, (w >>> 16).toUInt8, (w >>> 24).toUInt8]

def outputBytes (h : ChainValue) : FixedBytes 32 :=
  FixedBytes.ofPadded 32 (h.toList.flatMap wordBytes)

def hash (message : List UInt8) : FixedBytes 32 :=
  outputBytes <|
    match pieces 1024 message with
    | [chunk] => chunkValue 0 rootNode chunk
    | chunks => rootValue (chunks.mapIdx fun i chunk => chunkValue (UInt64.ofNat i) 0 chunk)

end QuorumChain.Blake3
