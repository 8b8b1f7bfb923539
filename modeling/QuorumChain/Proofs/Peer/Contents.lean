import QuorumChain.Proofs.Bytes
import QuorumChain.Proofs.Peer.Set

/-! Sets of positions as numbers: position `i` stands for `2 ^ i`. A set is what its members are, down to
its bytes, and is ordered by its number. -/

namespace QuorumChain.PeerSet

variable (s t : PeerSet)

/-- The number whose binary digits are the bits of a set. -/
def number : Nat := natOfBytes s.bits.bytes

theorem number_lt : s.number < 2 ^ 256 := by
  have h := natOfBytes_lt s.bits.bytes
  rw [s.bits.length_eq] at h
  exact h

theorem and_mask_ne_zero (b : UInt8) (i : PeerIndex) :
    (b &&& mask i != 0) = b.toNat.testBit (i.number % 8) := by
  have h : ∀ (a : Fin 256) (k : Fin 8),
      (UInt8.ofNat a &&& (1 <<< UInt8.ofNat k) != 0) = (UInt8.ofNat a).toNat.testBit k := by
    decide +kernel
  have hb := h ⟨b.toNat, b.toNat_lt⟩ ⟨i.number % 8, by omega⟩
  rwa [UInt8.ofNat_toNat] at hb

/-- **Membership is a bit of the number.** -/
theorem contains_eq_testBit (i : PeerIndex) : s.contains i = s.number.testBit i.number := by
  have hi := i.number_lt
  have hbyte : s.bits.bytes.reverse.getD (i.number / 8) 0 = s.bits.bytes.getD (slot i) 0 := by
    rw [List.getD_eq_getElem?_getD, List.getD_eq_getElem?_getD,
      List.getElem?_reverse (by rw [s.bits.length_eq]; omega), s.bits.length_eq]
    rfl
  rw [number, testBit_natOfBytes, hbyte]
  exact and_mask_ne_zero _ i

/-- The members are the places of the ones of the number. -/
theorem numbers_toList : s.toList.map (·.number) = s.number.bitIndices := by
  rw [← filter_testBit_range s.number_lt, toList, PeerIndex.all, List.filter_map, List.map_map]
  have hrange : List.range 256 = (List.finRange 256).map Fin.val := by simp
  rw [hrange, List.filter_map]
  congr 1
  refine List.filter_congr fun i _ => ?_
  exact s.contains_eq_testBit _

theorem onesIn_eq (b : UInt8) : onesIn b = b.toNat.bitIndices.length := by
  rw [← filter_testBit_range b.toNat_lt, ← List.countP_eq_length_filter]
  rfl

/-- The ones are counted byte by byte. -/
theorem sum_onesIn (bs : List UInt8) : (bs.map onesIn).sum = (natOfBytes bs).bitIndices.length := by
  induction bs using List.reverseRecOn with
  | nil => simp [natOfBytes]
  | append_singleton bs b ih =>
      rw [length_bitIndices_append, List.map_append, List.sum_append, ih, List.map_singleton,
        List.sum_singleton, onesIn_eq]

theorem size_eq_length : s.size = s.toList.length := by
  have hlength := congrArg List.length s.numbers_toList
  rw [List.length_map] at hlength
  rw [size, ← List.sum_eq_foldr, sum_onesIn, hlength, number]

/-- The number is made of the members. -/
theorem number_eq_sum : s.number = (s.toList.map fun i => 2 ^ i.number).sum := by
  have h := Nat.sum_map_two_pow_bitIndices s.number
  rw [← numbers_toList, List.map_map] at h
  exact h.symm

variable {s t} in
/-- Sets with the same members are the same string of bytes. -/
theorem eq_of_contains (h : ∀ i, s.contains i = t.contains i) : s = t := by
  have hnumber : s.number = t.number := by
    refine Nat.eq_of_testBit_eq fun i => ?_
    by_cases hi : i < 256
    · have hi := h ⟨i, hi⟩
      rwa [contains_eq_testBit, contains_eq_testBit] at hi
    · have hbound : 2 ^ 256 ≤ 2 ^ i := Nat.pow_le_pow_right (by decide) (Nat.le_of_not_lt hi)
      rw [Nat.testBit_lt_two_pow (s.number_lt.trans_le hbound),
        Nat.testBit_lt_two_pow (t.number_lt.trans_le hbound)]
  have hbytes := natOfBytes_inj (s.bits.length_eq.trans t.bits.length_eq.symm) hnumber
  exact PeerSet.ext (FixedBytes.ext hbytes)

theorem ofList_toList : ofList s.toList = s := by
  refine eq_of_contains fun i => ?_
  rw [Bool.eq_iff_iff]
  exact (mem_ofList s.toList i).trans (mem_toList s i)

theorem byteOrder_eq : s.byteOrder t = compare s.number t.number :=
  compare_natOfBytes (s.bits.length_eq.trans t.bits.length_eq.symm)

/-- **A set of positions is what its members are.** -/
theorem members_determine (i j : PeerIndex) (l : List PeerIndex) :
    (s.insert i).contains j = (if j = i then true else s.contains j) ∧
    (s.erase i).contains j = (if j = i then false else s.contains j) ∧
    (s.union t).contains j = (s.contains j || t.contains j) ∧
    (j ∈ s.toList ↔ s.contains j = true) ∧
    s.toList.Pairwise (fun a b => a.number < b.number) ∧
    s.size = s.toList.length ∧
    (s.isEmpty = true ↔ ∀ k, s.contains k = false) ∧
    ((ofList l).contains j = true ↔ j ∈ l) ∧
    ofList s.toList = s ∧
    ((∀ k, s.contains k = t.contains k) ↔ s.bits.bytes = t.bits.bytes) ∧
    s.byteOrder t =
      compare (s.toList.map fun k => 2 ^ k.number).sum (t.toList.map fun k => 2 ^ k.number).sum := by
  refine ⟨?_, ?_, s.contains_union t j, mem_toList s j, ?_, s.size_eq_length, ?_, mem_ofList l j,
    s.ofList_toList, ⟨fun h => by rw [eq_of_contains h], fun h k => ?_⟩, ?_⟩
  · rw [Bool.eq_iff_iff, contains_insert]
    split
    next h => simp [h]
    next h => simp [h]
  · rw [Bool.eq_iff_iff, contains_erase]
    split
    next h => simp [h]
    next h => simp [h]
  · have hsorted := (Nat.bitIndices_sorted (n := s.number)).pairwise
    rwa [← numbers_toList, List.pairwise_map] at hsorted
  · rw [isEmpty_iff]
    exact forall_congr' fun k => iff_of_eq (Bool.not_eq_true _)
  · rw [PeerSet.ext (FixedBytes.ext h)]
  · rw [byteOrder_eq, number_eq_sum, number_eq_sum]

end QuorumChain.PeerSet
