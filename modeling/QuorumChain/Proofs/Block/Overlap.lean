import QuorumChain.Proofs.Block.Witness
import QuorumChain.Proofs.Plain
import QuorumChain.Proofs.Quorum

/-! The validators that two witnesses have in common. Those of an accepted witness are a quorum of the keys
it was checked against, whatever the block; so two witnesses, for the same block or for different ones, need
more common signers than there may be faulty validators. -/

namespace QuorumChain

namespace Witness

variable [CryptoSuite] {w w₁ w₂ : Witness} {id id₁ id₂ : BlockId} {peers : List PublicKey} {key : PublicKey}
  {k : Nat} {n : ValidatorCount}

/-- The witness has a valid signature of the key over the identifier. -/
def Shows (w : Witness) (key : PublicKey) (id : BlockId) : Prop :=
  ∃ s ∈ w.signatures, s.signer = key ∧ s.isValid id = true

/-- The keys that have a valid signature in the witness. -/
def validSigners (w : Witness) (id : BlockId) : Finset PublicKey :=
  ((w.signatures.filter (·.isValid id)).map (·.signer)).toFinset

theorem mem_validSigners : key ∈ w.validSigners id ↔ w.Shows key id := by
  unfold validSigners Shows
  rw [List.mem_toFinset, List.mem_map]
  simp only [List.mem_filter]
  constructor
  · rintro ⟨s, ⟨hs, hvalid⟩, hsigner⟩
    exact ⟨s, hs, hsigner, hvalid⟩
  · rintro ⟨s, hs, hsigner, hvalid⟩
    exact ⟨s, ⟨hs, hvalid⟩, hsigner⟩

theorem validSigners_subset (h : w.verify id peers k = .ok ()) : w.validSigners id ⊆ peers.toFinset := by
  intro key hkey
  obtain ⟨s, hs, rfl, _⟩ := mem_validSigners.mp hkey
  obtain ⟨_, _, hgood⟩ := verify_eq_ok.mp h
  exact List.mem_toFinset.mpr (hgood s hs).1

/-- No signature of an accepted witness is idle: each is valid, and of a signer of its own. -/
theorem threshold_le_card_validSigners (h : w.verify id peers k = .ok ()) : k ≤ (w.validSigners id).card := by
  obtain ⟨hmany, hnodup, hgood⟩ := verify_eq_ok.mp h
  have hall : w.signatures.filter (·.isValid id) = w.signatures :=
    List.filter_eq_self.mpr fun s hs => (hgood s hs).2
  unfold validSigners
  rw [hall, List.toFinset_card_of_nodup hnodup, List.length_map]
  exact hmany

/-- More validators than may be faulty have signed both times. So whoever is faulty, an honest one has. -/
theorem share_honest_signer (hn : n.total = peers.length) (hpos : 0 < n.total)
    (h₁ : w₁.verify id₁ peers n.threshold = .ok ()) (h₂ : w₂.verify id₂ peers n.threshold = .ok ()) :
    (∃ shared : Finset PublicKey, n.maxFaulty + 1 ≤ shared.card ∧
        ∀ key ∈ shared, key ∈ peers ∧ w₁.Shows key id₁ ∧ w₂.Shows key id₂) ∧
      ∀ faulty : Finset PublicKey, faulty.card ≤ n.maxFaulty →
        ∃ key ∈ peers, key ∉ faulty ∧ w₁.Shows key id₁ ∧ w₂.Shows key id₂ := by
  have hpeers : peers.toFinset.card ≤ n.total := hn ▸ peers.toFinset_card_le
  have hmany : n.maxFaulty < (w₁.validSigners id₁ ∩ w₂.validSigners id₂).card :=
    ValidatorCount.maxFaulty_lt_card_inter hpos hpeers (validSigners_subset h₁) (validSigners_subset h₂)
      (threshold_le_card_validSigners h₁) (threshold_le_card_validSigners h₂)
  have hshared : ∀ key ∈ w₁.validSigners id₁ ∩ w₂.validSigners id₂,
      key ∈ peers ∧ w₁.Shows key id₁ ∧ w₂.Shows key id₂ := by
    intro key hkey
    obtain ⟨hkey₁, hkey₂⟩ := Finset.mem_inter.mp hkey
    exact ⟨List.mem_toFinset.mp (validSigners_subset h₁ hkey₁), mem_validSigners.mp hkey₁,
      mem_validSigners.mp hkey₂⟩
  refine ⟨⟨_, hmany, hshared⟩, fun faulty hfew => ?_⟩
  obtain ⟨key, hkey, hhonest⟩ := Finset.exists_mem_notMem_of_card_lt_card (hfew.trans_lt hmany)
  obtain ⟨hpeer, hshows₁, hshows₂⟩ := hshared key hkey
  exact ⟨key, hpeer, hhonest, hshows₁, hshows₂⟩

end Witness

section Plain

local instance plainOverlapSuite : CryptoSuite := plainSuite

/-- The signatures of three of four validators, all but one. -/
def witnessWithout (i : Fin quartet.total) (id : BlockId) : Witness :=
  ⟨((List.finRange quartet.total).filter (· ≠ i)).map fun j => .sign id (plainKey j)⟩

/-- Two blocks of one height are witnessed, the one without validator 3 and the other one without validator 0.
If validator 1 is the faulty one, validator 2 has signed both. -/
theorem share_honest_signer_quartet :
    (plainBlock 1).id ≠ (plainBlock 2).id ∧
      ∃ key ∈ (plainRoster quartet).keys.toList, key ∉ ({(plainKey (n := quartet) 1).publicKey} : Finset PublicKey) ∧
        (witnessWithout 3 (plainBlock 1).id).Shows key (plainBlock 1).id ∧
        (witnessWithout 0 (plainBlock 2).id).Shows key (plainBlock 2).id := by
  have hwithout₃ : (witnessWithout 3 (plainBlock 1).id).verify (plainBlock 1).id (plainRoster quartet).keys.toList
      quartet.threshold = .ok () := by
    decide +kernel
  have hwithout₀ : (witnessWithout 0 (plainBlock 2).id).verify (plainBlock 2).id (plainRoster quartet).keys.toList
      quartet.threshold = .ok () := by
    decide +kernel
  exact ⟨by decide +kernel,
    (Witness.share_honest_signer rfl (by decide) hwithout₃ hwithout₀).2 _ (Nat.le_of_eq (Finset.card_singleton _))⟩

end Plain

end QuorumChain
