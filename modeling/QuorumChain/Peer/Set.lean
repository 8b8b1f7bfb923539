import QuorumChain.Peer

/-!
Sets of positions as strings of 256 bits, the bit of position 0 last.
-/

namespace QuorumChain

/-- A set of positions, position `i` being bit `i % 8` of byte `31 - i / 8`. -/
@[ext] structure PeerSet where
  bits : FixedBytes 32
deriving DecidableEq

namespace PeerSet

def empty : PeerSet := ⟨.zero 32⟩

instance : Inhabited PeerSet := ⟨empty⟩

/-- Where the byte of a position stands. -/
def slot (i : PeerIndex) : Nat := 31 - i.number / 8

/-- The byte with only the bit of a position set. -/
def mask (i : PeerIndex) : UInt8 := 1 <<< UInt8.ofNat (i.number % 8)

/-- Changes the byte of a position. -/
def change (s : PeerSet) (i : PeerIndex) (f : UInt8 → UInt8) : PeerSet :=
  ⟨⟨s.bits.bytes.modify (slot i) f, by simp [s.bits.length_eq]⟩⟩

def insert (s : PeerSet) (i : PeerIndex) : PeerSet := s.change i (· ||| mask i)

def erase (s : PeerSet) (i : PeerIndex) : PeerSet := s.change i (· &&& ~~~mask i)

def contains (s : PeerSet) (i : PeerIndex) : Bool :=
  s.bits.bytes.getD (slot i) 0 &&& mask i != 0

instance : Membership PeerIndex PeerSet := ⟨fun s i => s.contains i = true⟩

instance (s : PeerSet) (i : PeerIndex) : Decidable (i ∈ s) :=
  inferInstanceAs (Decidable (s.contains i = true))

def union (s t : PeerSet) : PeerSet :=
  ⟨⟨s.bits.bytes.zipWith (· ||| ·) t.bits.bytes, by simp [s.bits.length_eq, t.bits.length_eq]⟩⟩

/-- The number of bits set in a byte. -/
def onesIn (b : UInt8) : Nat :=
  (List.range 8).countP fun k => b.toNat.testBit k

def size (s : PeerSet) : Nat := (s.bits.bytes.map onesIn).foldr (· + ·) 0

def isEmpty (s : PeerSet) : Bool := s.size == 0

/-- The members, ascending. -/
def toList (s : PeerSet) : List PeerIndex := PeerIndex.all.filter s.contains

def ofList (l : List PeerIndex) : PeerSet := l.foldl insert empty

/-- The order of the byte strings. -/
def byteOrder (s t : PeerSet) : Ordering := compare s.bits t.bits

instance : ToString PeerSet :=
  ⟨fun s => "\x7b" ++ String.intercalate "," (s.toList.map toString) ++ "\x7d"⟩

end PeerSet

end QuorumChain
