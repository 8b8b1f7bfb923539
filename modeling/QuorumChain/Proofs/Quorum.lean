import Mathlib.Data.Fintype.Card
import QuorumChain.Peer

/-! Sets of validators that are large enough to decide. Two quorums have more members in common than
may be faulty, and a quorum meets every set of more than `maxFaulty` validators. -/

namespace QuorumChain.ValidatorCount

variable {n : ValidatorCount}

theorem maxFaulty_add_threshold (n : ValidatorCount) : n.maxFaulty + n.threshold = n.total := by
  unfold threshold maxFaulty
  omega

theorem maxFaulty_lt_threshold (h : 0 < n.total) : n.maxFaulty < n.threshold := by
  unfold threshold maxFaulty
  omega

/-- Two quorums overlap in more validators than may be faulty. -/
theorem total_add_maxFaulty_lt (h : 0 < n.total) : n.total + n.maxFaulty < n.threshold + n.threshold := by
  unfold threshold maxFaulty
  omega

section Overlap

variable {α : Type} [DecidableEq α] {S T all : Finset α}

theorem card_add_card_le (hS : S ⊆ all) (hT : T ⊆ all) : S.card + T.card ≤ all.card + (S ∩ T).card := by
  rw [← Finset.card_union_add_card_inter S T]
  exact Nat.add_le_add_right (Finset.card_le_card (Finset.union_subset hS hT)) _

theorem maxFaulty_lt_card_inter (h : 0 < n.total) (hall : all.card ≤ n.total) (hS : S ⊆ all) (hT : T ⊆ all)
    (hmanyS : n.threshold ≤ S.card) (hmanyT : n.threshold ≤ T.card) : n.maxFaulty < (S ∩ T).card := by
  have hoverlap := total_add_maxFaulty_lt h
  have hcard := card_add_card_le hS hT
  omega

end Overlap

theorem memberAt?_eq_some {i : PeerIndex} {j : Fin n.total} :
    n.memberAt? i = some j ↔ i = n.indexOf j := by
  unfold memberAt? indexOf
  split
  next h => simp [PeerIndex.ext_iff, Fin.ext_iff]
  next h =>
    simp only [reduceCtorEq, PeerIndex.ext_iff, false_iff]
    intro heq
    exact h (heq ▸ j.isLt)

theorem memberAt?_indexOf (i : Fin n.total) : n.memberAt? (n.indexOf i) = some i :=
  memberAt?_eq_some.mpr rfl

theorem indexOf_inj {i j : Fin n.total} : n.indexOf i = n.indexOf j ↔ i = j := by
  rw [← memberAt?_eq_some, memberAt?_indexOf, Option.some.injEq]

/-- Two sets of validators with more members than there are validators share one. -/
theorem exists_mem_of_total_lt {S T : Finset (Fin n.total)} (h : n.total < S.card + T.card) :
    ∃ i, i ∈ S ∧ i ∈ T := by
  have hcard := card_add_card_le (Finset.subset_univ S) (Finset.subset_univ T)
  rw [Finset.card_univ, Fintype.card_fin] at hcard
  have hpos : 0 < (S ∩ T).card := by omega
  obtain ⟨i, hi⟩ := Finset.card_pos.mp hpos
  exact ⟨i, Finset.mem_inter.mp hi⟩

end QuorumChain.ValidatorCount
