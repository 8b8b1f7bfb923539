import Mathlib.Data.List.Induction
import Mathlib.Data.Nat.BitIndices
import Mathlib.Tactic.Ring
import QuorumChain.Bytes

/-! Byte strings as numbers: the first byte that differs is the leading digit that does, so strings of
one length are ordered as their numbers are, and each bit of the number is a bit of one byte. -/

namespace QuorumChain

theorem natOfBytes_cons (b : UInt8) (bs : List UInt8) :
    natOfBytes (b :: bs) = b.toNat * 256 ^ bs.length + natOfBytes bs := by
  induction bs using List.reverseRecOn with
  | nil => simp [natOfBytes]
  | append_singleton bs c ih =>
      rw [← List.cons_append, natOfBytes_append_singleton, natOfBytes_append_singleton, ih,
        List.length_append, List.length_singleton, Nat.pow_succ]
      ring

/-- Strings of one length are the same if their numbers are. -/
theorem natOfBytes_inj {a b : List UInt8} (hlength : a.length = b.length)
    (h : natOfBytes a = natOfBytes b) : a = b := by
  rw [← bytesOfNat_natOfBytes hlength, h, bytesOfNat_natOfBytes rfl]

/-- **The order of byte strings of one length is that of their numbers.** -/
theorem compare_natOfBytes {a b : List UInt8} (h : a.length = b.length) :
    compare a b = compare (natOfBytes a) (natOfBytes b) := by
  induction a generalizing b with
  | nil =>
      obtain rfl : b = [] := List.length_eq_zero_iff.mp h.symm
      rfl
  | cons x a ih =>
      cases b with
      | nil => cases h
      | cons y b =>
          have htail : a.length = b.length := Nat.succ.inj h
          have ha : natOfBytes a < 256 ^ b.length := htail ▸ natOfBytes_lt a
          have hb := natOfBytes_lt b
          rw [List.compare_cons_cons, UInt8.compare_eq_toNat_compare_toNat, natOfBytes_cons,
            natOfBytes_cons, htail, ih htail]
          -- what a smaller leading byte is behind cannot be made up for by the bytes after it
          have hless : ∀ {c d e f : Nat}, c < d → e < 256 ^ b.length →
              c * 256 ^ b.length + e < d * 256 ^ b.length + f := by
            intro c d e f hcd he
            have hstep : (c + 1) * 256 ^ b.length ≤ d * 256 ^ b.length := Nat.mul_le_mul_right _ hcd
            rw [Nat.succ_mul] at hstep
            omega
          rcases Nat.lt_trichotomy x.toNat y.toNat with hlt | heq | hgt
          · rw [Nat.compare_eq_lt.mpr hlt, Nat.compare_eq_lt.mpr (hless hlt ha)]
            rfl
          · rw [heq, Nat.compare_eq_eq.mpr rfl]
            simp only [Ordering.then, compare, compareOfLessAndEq, Nat.add_lt_add_iff_left,
              Nat.add_left_cancel_iff]
          · rw [Nat.compare_eq_gt.mpr hgt, Nat.compare_eq_gt.mpr (hless hgt hb)]
            rfl

/-- Bit `i` of the number is bit `i % 8` of the byte that has `i / 8` bytes after it. -/
theorem testBit_natOfBytes (bs : List UInt8) (i : Nat) :
    (natOfBytes bs).testBit i = (bs.reverse.getD (i / 8) 0).toNat.testBit (i % 8) := by
  induction bs using List.reverseRecOn generalizing i with
  | nil => simp [natOfBytes]
  | append_singleton bs b ih =>
      rw [natOfBytes_append_singleton, Nat.mul_comm, List.reverse_append, List.reverse_singleton,
        List.singleton_append, show 256 = 2 ^ 8 from rfl, Nat.testBit_two_pow_mul_add _ b.toNat_lt]
      by_cases hi : i < 8
      · rw [if_pos hi, Nat.div_eq_of_lt hi, Nat.mod_eq_of_lt hi]
        rfl
      · have hdiv : i / 8 = (i - 8) / 8 + 1 := by omega
        have hmod : i % 8 = (i - 8) % 8 := by omega
        rw [if_neg hi, ih, hdiv, hmod]
        rfl

/-- The ones of a number are found below any bound on its length. -/
theorem filter_testBit_range {x k : Nat} (h : x < 2 ^ k) : (List.range k).filter x.testBit = x.bitIndices := by
  refine List.SortedLT.eq_of_mem_iff ?_ Nat.bitIndices_sorted fun i => ?_
  · exact List.sortedLT_iff_pairwise.mpr (List.pairwise_lt_range.filter _)
  · rw [List.mem_filter, List.mem_range, Nat.mem_bitIndices, and_iff_right_iff_imp]
    intro hi
    exact (Nat.pow_lt_pow_iff_right (by decide)).mp ((Nat.ge_two_pow_of_testBit hi).trans_lt h)

/-- A number has the ones of its lowest byte and those of what is before that. -/
theorem length_bitIndices_append (bs : List UInt8) (b : UInt8) :
    (natOfBytes (bs ++ [b])).bitIndices.length =
      (natOfBytes bs).bitIndices.length + b.toNat.bitIndices.length := by
  have hbs := natOfBytes_lt bs
  have hbytes := natOfBytes_lt (bs ++ [b])
  rw [show 256 = 2 ^ 8 from rfl, ← Nat.pow_mul] at hbs hbytes
  rw [List.length_append, List.length_singleton, Nat.mul_succ, Nat.add_comm] at hbytes
  rw [← filter_testBit_range hbytes, ← filter_testBit_range hbs, ← filter_testBit_range b.toNat_lt,
    ← List.countP_eq_length_filter, ← List.countP_eq_length_filter, ← List.countP_eq_length_filter,
    List.range_add, List.countP_append, List.countP_map, Nat.add_comm]
  rw [natOfBytes_append_singleton, Nat.mul_comm, show 256 = 2 ^ 8 from rfl]
  congr 1
  · refine List.countP_congr fun i _ => ?_
    rw [Function.comp_apply, Nat.testBit_two_pow_mul_add _ b.toNat_lt, if_neg (by omega),
      Nat.add_sub_cancel_left]
  · refine List.countP_congr fun i hi => ?_
    rw [Nat.testBit_two_pow_mul_add _ b.toNat_lt, if_pos (List.mem_range.mp hi)]

end QuorumChain
