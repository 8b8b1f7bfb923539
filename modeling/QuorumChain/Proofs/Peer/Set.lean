import Mathlib.Data.List.Nodup
import QuorumChain.Peer.Set

/-! Sets of positions by their members: putting a position in and taking it out, the union of two sets,
making a set of a list, and the list of the members. -/

namespace QuorumChain.PeerSet

theorem or_and_eq_zero (a b m : UInt8) : (a ||| b) &&& m = 0 ↔ a &&& m = 0 ∧ b &&& m = 0 := by
  rw [← UInt8.or_eq_zero_iff, ← UInt8.toBitVec_inj, ← UInt8.toBitVec_inj]
  simp [BitVec.and_or_distrib_right]

theorem mask_and_mask (i j : PeerIndex) : mask i &&& mask j = 0 ↔ i.number % 8 ≠ j.number % 8 := by
  have h : ∀ a b : Fin 8, (1 <<< UInt8.ofNat a : UInt8) &&& (1 <<< UInt8.ofNat b) = 0 ↔ a ≠ b := by
    decide
  have hij := h ⟨i.number % 8, by omega⟩ ⟨j.number % 8, by omega⟩
  rwa [Ne, Fin.mk.injEq] at hij

theorem slot_lt (s : PeerSet) (i : PeerIndex) : slot i < s.bits.bytes.length := by
  rw [s.bits.length_eq]
  unfold slot
  omega

/-- Only positions in the byte that is changed can come in or go. -/
theorem contains_change (s : PeerSet) (i j : PeerIndex) (f : UInt8 → UInt8) :
    (s.change i f).contains j =
      if slot i = slot j then f (s.bits.bytes.getD (slot j) 0) &&& mask j != 0 else s.contains j := by
  simp only [contains, change, List.getD_eq_getElem?_getD, List.getElem?_modify,
    List.getElem?_eq_getElem (s.slot_lt j), Option.map_eq_map, Option.map_some, Option.getD_some]
  split
  · rfl
  · rfl

theorem contains_insert (s : PeerSet) (i j : PeerIndex) :
    (s.insert i).contains j = true ↔ j = i ∨ s.contains j = true := by
  have hi := i.number_lt
  have hj := j.number_lt
  rw [insert, contains_change]
  split
  next hs =>
    rw [bne_iff_ne, ne_eq, or_and_eq_zero, mask_and_mask, PeerIndex.ext_iff, contains, bne_iff_ne, ne_eq]
    unfold slot at hs
    constructor
    · intro h
      by_cases hb : s.bits.bytes.getD (slot j) 0 &&& mask j = 0
      · have hm := not_and.mp h hb
        left
        omega
      · exact .inr hb
    · rintro (h | h) ⟨hb, hm⟩
      · omega
      · exact h hb
  next hs =>
    have hne : j ≠ i := fun h => hs (by rw [h])
    rw [or_iff_right hne]

/-- A mask clears the bit that it has, and leaves the other ones of its byte. -/
theorem complement_and_mask (i j : PeerIndex) :
    ~~~mask i &&& mask j = if i.number % 8 = j.number % 8 then (0 : UInt8) else mask j := by
  have h : ∀ a b : Fin 8, ~~~(1 <<< UInt8.ofNat a : UInt8) &&& (1 <<< UInt8.ofNat b) =
      if a.val = b.val then (0 : UInt8) else 1 <<< UInt8.ofNat b := by decide
  exact h ⟨i.number % 8, by omega⟩ ⟨j.number % 8, by omega⟩

theorem contains_erase (s : PeerSet) (i j : PeerIndex) :
    (s.erase i).contains j = true ↔ j ≠ i ∧ s.contains j = true := by
  have hi := i.number_lt
  have hj := j.number_lt
  rw [erase, contains_change]
  split
  next hs =>
    rw [UInt8.and_assoc, complement_and_mask, ne_eq, PeerIndex.ext_iff]
    unfold slot at hs
    split
    next hmod =>
      simp only [UInt8.and_zero, bne_self_eq_false, Bool.false_eq_true, false_iff, not_and]
      omega
    next hmod =>
      rw [contains, and_iff_right]
      omega
  next hs =>
    have hne : j ≠ i := fun h => hs (by rw [h])
    rw [and_iff_right hne]

theorem contains_union (s t : PeerSet) (i : PeerIndex) :
    (s.union t).contains i = (s.contains i || t.contains i) := by
  rw [Bool.eq_iff_iff, Bool.or_eq_true]
  simp only [contains, union, List.getD_eq_getElem?_getD, List.getElem?_zipWith,
    List.getElem?_eq_getElem (s.slot_lt i), List.getElem?_eq_getElem (t.slot_lt i), Option.getD_some,
    bne_iff_ne, ne_eq]
  rw [or_and_eq_zero, not_and_or]

theorem contains_empty (i : PeerIndex) : empty.contains i = false := by
  have hzero : (List.replicate 32 (0 : UInt8)).getD (slot i) 0 = 0 := by
    rw [List.getD_eq_getElem?_getD, List.getElem?_replicate]
    split
    · rfl
    · rfl
  show ((List.replicate 32 (0 : UInt8)).getD (slot i) 0 &&& mask i != 0) = false
  rw [hzero]
  simp

theorem mem_ofList (l : List PeerIndex) (i : PeerIndex) : i ∈ ofList l ↔ i ∈ l := by
  have h : ∀ s : PeerSet, (l.foldl insert s).contains i = true ↔ i ∈ l ∨ s.contains i = true := by
    induction l with
    | nil => simp
    | cons j l ih =>
        intro s
        rw [List.foldl_cons, ih, contains_insert, List.mem_cons]
        rw [or_left_comm, or_assoc]
  have hl := h empty
  rw [contains_empty, Bool.false_eq_true, or_false] at hl
  exact hl

theorem mem_toList (s : PeerSet) (i : PeerIndex) : i ∈ s.toList ↔ i ∈ s := by
  have hi : i ∈ PeerIndex.all := by
    rw [PeerIndex.all, List.mem_map]
    exact ⟨⟨i.number, i.number_lt⟩, List.mem_finRange _, rfl⟩
  simp only [toList, List.mem_filter, hi, true_and]
  rfl

theorem nodup_toList (s : PeerSet) : s.toList.Nodup := by
  refine List.Nodup.filter _ (List.Nodup.map (fun i j h => ?_) (List.nodup_finRange 256))
  rw [PeerIndex.mk.injEq] at h
  exact Fin.ext h

theorem onesIn_eq_zero (b : UInt8) : onesIn b = 0 ↔ ∀ k : Fin 8, b &&& (1 <<< UInt8.ofNat k) = 0 := by
  have h : ∀ a : Fin 256, onesIn (.ofNat a) = 0 ↔
      ∀ k : Fin 8, UInt8.ofNat a &&& (1 <<< UInt8.ofNat k) = 0 := by decide +kernel
  have hb := h ⟨b.toNat, b.toNat_lt⟩
  rwa [UInt8.ofNat_toNat] at hb

/-- A set is empty if no byte of it has a bit. -/
theorem isEmpty_iff (s : PeerSet) : s.isEmpty = true ↔ ∀ i, i ∉ s := by
  have hbytes : s.isEmpty = true ↔ ∀ b ∈ s.bits.bytes, onesIn b = 0 := by
    rw [isEmpty, beq_iff_eq, size, ← List.sum_eq_foldr, List.sum_eq_zero_iff_forall_eq_nat]
    exact List.forall_mem_map
  rw [hbytes]
  constructor
  · intro h i hi
    have hslot := s.slot_lt i
    have hzero := (onesIn_eq_zero _).mp (h _ (List.getElem_mem hslot)) ⟨i.number % 8, by omega⟩
    have hi : (s.bits.bytes.getD (slot i) 0 &&& mask i != 0) = true := hi
    rw [List.getD_eq_getElem?_getD, List.getElem?_eq_getElem hslot, Option.getD_some, bne_iff_ne] at hi
    exact hi hzero
  · intro h b hb
    obtain ⟨p, hp, rfl⟩ := List.getElem_of_mem hb
    have hlt : p < 32 := s.bits.length_eq ▸ hp
    refine (onesIn_eq_zero _).mpr fun k => ?_
    have hk := k.isLt
    have hrem : ((31 - p) * 8 + k) % 8 = k := by omega
    have hslot : 31 - ((31 - p) * 8 + k) / 8 = p := by omega
    have hnot : ¬ (s.bits.bytes.getD (31 - ((31 - p) * 8 + k) / 8) 0 &&&
        (1 <<< UInt8.ofNat (((31 - p) * 8 + k) % 8)) != 0) = true := h ⟨(31 - p) * 8 + k, by omega⟩
    rwa [hrem, hslot, List.getD_eq_getElem?_getD, List.getElem?_eq_getElem hp, Option.getD_some,
      bne_iff_ne, ne_eq, Decidable.not_not] at hnot

theorem exists_mem_of_isEmpty {s : PeerSet} (h : s.isEmpty = false) : ∃ i, i ∈ s := by
  by_contra hnone
  rw [(isEmpty_iff s).mpr (not_exists.mp hnone)] at h
  cases h

theorem isEmpty_ofList (l : List PeerIndex) : (ofList l).isEmpty = true ↔ l = [] := by
  rw [isEmpty_iff, List.eq_nil_iff_forall_not_mem]
  exact forall_congr' fun i => not_congr (mem_ofList l i)

end QuorumChain.PeerSet
