import Mathlib.Logic.Function.Iterate
import QuorumChain.Counter
import QuorumChain.Proofs.Bytes

/-! Counters as strings of eight bytes. The most significant byte comes first, so comparing bytes compares
what is counted, and counting up by one is going to the next string in the order of bytes. -/

namespace QuorumChain.Counter

variable {kind : CounterKind}

theorem toBytes_inj {a b : Counter kind} : a.toBytes = b.toBytes ↔ a = b := by
  refine ⟨fun h => ?_, congrArg toBytes⟩
  rw [← ofBytes_toBytes a, h, ofBytes_toBytes]

theorem toBytes_last : (last : Counter kind).toBytes = .max 8 :=
  FixedBytes.ext (show bytesOfNat 8 (2 ^ 64 - 1) = List.replicate 8 255 by decide)

/-- Every number below 2^64 is that of some eight bytes, and only these are. -/
theorem exists_ofBytes {v : Nat} : (∃ x, (ofBytes x : Counter kind).number = v) ↔ v < 2 ^ 64 := by
  constructor
  · rintro ⟨x, rfl⟩
    exact number_lt _
  · intro h
    exact ⟨(⟨v, h⟩ : Counter kind).toBytes, congrArg number (ofBytes_toBytes _)⟩

/-- Strings of eight bytes are ordered as their numbers are. -/
theorem compare_ofBytes (x y : FixedBytes 8) :
    compare x y = compare (ofBytes x : Counter kind).number (ofBytes y : Counter kind).number :=
  compare_natOfBytes (x.length_eq.trans y.length_eq.symm)

theorem byteOrder_eq_compare (a b : Counter kind) : a.byteOrder b = compare a.number b.number := by
  rw [byteOrder, @compare_ofBytes kind, ofBytes_toBytes, ofBytes_toBytes]

theorem byteOrder_eq_lt {a b : Counter kind} : a.byteOrder b = .lt ↔ a < b := by
  rw [byteOrder_eq_compare, Nat.compare_eq_lt]
  rfl

theorem isLE_byteOrder {a b : Counter kind} : (a.byteOrder b).isLE = true ↔ a ≤ b := by
  rw [byteOrder_eq_compare, Nat.isLE_compare]
  rfl

/-- The next counter is the least of the greater ones. -/
theorem next_eq_some_iff_least {a c : Counter kind} : a.next = some c ↔ a < c ∧ ∀ d, a < d → c ≤ d := by
  simp only [lt_def, le_def, next_eq_some]
  constructor
  · intro h
    exact ⟨by omega, fun d hd => by omega⟩
  · rintro ⟨hlt, hleast⟩
    have hc := c.number_lt
    obtain ⟨d, _, hd⟩ := exists_next (a := a) (by omega)
    have hle := hleast d (by omega)
    omega

theorem checkedAdd_zero (a : Counter kind) : a.checkedAdd 0 = some a :=
  checkedAdd_eq_some.mpr rfl

theorem checkedAdd_succ (a : Counter kind) (k : Nat) : a.checkedAdd (k + 1) = (a.checkedAdd k).bind next := by
  cases h : a.checkedAdd k with
  | none =>
      rw [checkedAdd_eq_none] at h
      exact checkedAdd_eq_none.mpr (by omega)
  | some b =>
      rw [checkedAdd_eq_some] at h
      show _ = b.checkedAdd 1
      rw [checkedAdd, checkedAdd, h, Nat.add_assoc]

/-- Adding is counting up so many times; both run out together. -/
theorem checkedAdd_eq_iterate (a : Counter kind) (k : Nat) :
    a.checkedAdd k = (fun o => o.bind next)^[k] (some a) := by
  induction k with
  | zero => exact a.checkedAdd_zero
  | succ k ih => rw [Function.iterate_succ_apply', ← ih, checkedAdd_succ]

/-- **Byte order is numeric order.** Strings of eight bytes and numbers below 2^64 stand for each other, in
the same order; `next` goes to the least greater one, `prev` back, and `checkedAdd` is so many times `next`. -/
theorem bytes_ordered_as_numbers (x y : FixedBytes 8) (a b : Counter kind) (v k : Nat) :
    (ofBytes x : Counter kind).toBytes = x ∧
    ofBytes a.toBytes = a ∧
    ((∃ z, (ofBytes z : Counter kind).number = v) ↔ v < 2 ^ 64) ∧
    compare x y = compare (ofBytes x : Counter kind).number (ofBytes y : Counter kind).number ∧
    a.byteOrder b = compare a.number b.number ∧
    (a.next = none ↔ a.toBytes = .max 8) ∧
    (a.next = some b ↔ a.byteOrder b = .lt ∧ ∀ c, a.byteOrder c = .lt → (b.byteOrder c).isLE = true) ∧
    (b.prev = some a ↔ a.next = some b) ∧
    ((a.checkedAdd k).isSome = true ↔ a.number + k < 2 ^ 64) ∧
    a.checkedAdd k = (fun o => o.bind next)^[k] (some a) := by
  refine ⟨toBytes_ofBytes x, ofBytes_toBytes a, exists_ofBytes, compare_ofBytes x y,
    a.byteOrder_eq_compare b, ?_, ?_, prev_eq_some.trans next_eq_some.symm, ?_, a.checkedAdd_eq_iterate k⟩
  · rw [next_eq_none, ← @toBytes_last kind, toBytes_inj, Counter.ext_iff]
    rfl
  · simp only [byteOrder_eq_lt, isLE_byteOrder, next_eq_some_iff_least]
  · rw [Option.isSome_iff_ne_none, ne_eq, checkedAdd_eq_none, Nat.not_le]

end QuorumChain.Counter
