import QuorumChain.Power

/-!
Byte strings: strings of a fixed length, and numbers written big-endian.
-/

namespace QuorumChain

/-- The number that a big-endian byte string stands for. -/
def natOfBytes (bs : List UInt8) : Nat :=
  bs.foldl (fun acc b => acc * 256 + b.toNat) 0

/-- The last `width` base 256 digits of a number, most significant first. -/
def bytesOfNat : (width : Nat) → Nat → List UInt8
  | 0, _ => []
  | width + 1, v => bytesOfNat width (v / 256) ++ [UInt8.ofNat v]

@[simp] theorem length_bytesOfNat (width v : Nat) : (bytesOfNat width v).length = width := by
  induction width generalizing v with
  | zero => rfl
  | succ w ih => simp [bytesOfNat, ih]

theorem natOfBytes_append_singleton (bs : List UInt8) (b : UInt8) :
    natOfBytes (bs ++ [b]) = natOfBytes bs * 256 + b.toNat := by
  simp [natOfBytes]

theorem natOfBytes_bytesOfNat (width v : Nat) : natOfBytes (bytesOfNat width v) = v % 256 ^ width := by
  induction width generalizing v with
  | zero => simp [bytesOfNat, natOfBytes, Nat.mod_one]
  | succ w ih =>
    have hb : (UInt8.ofNat v).toNat = v % 256 := by simp
    rw [bytesOfNat, natOfBytes_append_singleton, ih, hb, Nat.pow_succ', Nat.mod_mul]
    omega

private theorem foldl_digits_lt (bs : List UInt8) (acc : Nat) :
    bs.foldl (fun acc b => acc * 256 + b.toNat) acc < (acc + 1) * 256 ^ bs.length := by
  induction bs generalizing acc with
  | nil => simp
  | cons b bs ih =>
    refine Nat.lt_of_lt_of_le (ih _) ?_
    have hb := b.toNat_lt
    rw [List.length_cons, Nat.pow_succ', ← Nat.mul_assoc]
    exact Nat.mul_le_mul_right _ (by simp only; omega)

theorem natOfBytes_lt (bs : List UInt8) : natOfBytes bs < 256 ^ bs.length := by
  simpa [natOfBytes] using foldl_digits_lt bs 0

/-- A byte string is made of the digits of its number. -/
theorem bytesOfNat_natOfBytes {width : Nat} {bs : List UInt8} (h : bs.length = width) :
    bytesOfNat width (natOfBytes bs) = bs := by
  induction width generalizing bs with
  | zero => exact (List.length_eq_zero_iff.mp h).symm
  | succ w ih =>
    have hne : bs ≠ [] := List.ne_nil_of_length_eq_add_one h
    have hsplit := List.dropLast_concat_getLast hne
    have hlen : bs.dropLast.length = w := by simp [h]
    have hb := (bs.getLast hne).toNat_lt
    have hhigh : (natOfBytes bs.dropLast * 256 + (bs.getLast hne).toNat) / 256 = natOfBytes bs.dropLast := by
      omega
    have hlow : UInt8.ofNat (natOfBytes bs.dropLast * 256 + (bs.getLast hne).toNat) = bs.getLast hne := by
      apply UInt8.toNat_inj.mp
      rw [UInt8.toNat_ofNat']
      omega
    rw [← hsplit, natOfBytes_append_singleton, bytesOfNat, hhigh, ih hlen, hlow]

/-- A byte string of length `n`. -/
@[ext] structure FixedBytes (n : Nat) where
  bytes : List UInt8
  length_eq : bytes.length = n
deriving DecidableEq

namespace FixedBytes

variable {n : Nat}

/-- The byte string itself, if it has the right length. -/
def ofList? (n : Nat) (bs : List UInt8) : Option (FixedBytes n) :=
  if h : bs.length = n then some ⟨bs, h⟩ else none

/-- One byte, repeated. -/
def fill (n : Nat) (b : UInt8) : FixedBytes n :=
  ⟨List.replicate n b, List.length_replicate⟩

/-- The least string in the order of bytes. -/
def zero (n : Nat) : FixedBytes n := fill n 0

/-- The greatest string in the order of bytes. -/
def max (n : Nat) : FixedBytes n := fill n 255

instance : Inhabited (FixedBytes n) := ⟨zero n⟩

/-- The first byte that differs decides. -/
instance : Ord (FixedBytes n) := ⟨fun a b => compare a.bytes b.bytes⟩

/-- Fixed length cut of a list that is long enough, padded with zeros otherwise. -/
def ofPadded (n : Nat) (bs : List UInt8) : FixedBytes n :=
  ⟨(bs ++ List.replicate n 0).take n, by simp⟩

@[simp] theorem ofList?_bytes (x : FixedBytes n) : ofList? n x.bytes = some x := by
  simp [ofList?, x.length_eq]

end FixedBytes

end QuorumChain
