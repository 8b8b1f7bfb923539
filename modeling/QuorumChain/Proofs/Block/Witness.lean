import QuorumChain.Block.Identity

/-! What it takes for a witness to be accepted: enough signatures, each valid and of a validator, and
no two by the same one. -/

namespace QuorumChain.Witness

variable [CryptoSuite] {id : BlockId} {peers seen : List PublicKey} {signatures : List CommitSignature}

theorem verifySigners_eq_ok :
    verifySigners id peers seen signatures = .ok () ↔
      (signatures.map (·.signer)).Nodup ∧
        ∀ s ∈ signatures, s.signer ∈ peers ∧ s.signer ∉ seen ∧ s.isValid id = true := by
  induction signatures generalizing seen with
  | nil => simp [verifySigners]
  | cons s rest ih =>
      unfold verifySigners
      split
      next hpeer => simp [hpeer]
      next hpeer =>
        split
        next hseen => simp [hseen]
        next hseen =>
          split
          next hvalid => simp_all
          next hvalid =>
            simp only [Bool.not_eq_true, Bool.not_eq_false'] at hvalid
            rw [ih]
            simp only [List.map_cons, List.nodup_cons, List.mem_map, List.mem_cons, not_or, forall_eq_or_imp]
            constructor
            · rintro ⟨hnodup, hrest⟩
              refine ⟨⟨?_, hnodup⟩, ⟨Decidable.not_not.mp hpeer, hseen, hvalid⟩, fun t ht => ?_⟩
              · rintro ⟨t, ht, heq⟩
                exact (hrest t ht).2.1.1 heq
              · obtain ⟨hp, ⟨_, hs⟩, hv⟩ := hrest t ht
                exact ⟨hp, hs, hv⟩
            · rintro ⟨⟨hnew, hnodup⟩, _, hrest⟩
              refine ⟨hnodup, fun t ht => ?_⟩
              obtain ⟨hp, hs, hv⟩ := hrest t ht
              exact ⟨hp, ⟨fun heq => hnew ⟨t, ht, heq⟩, hs⟩, hv⟩

theorem verify_eq_ok {w : Witness} {threshold : Nat} :
    w.verify id peers threshold = .ok () ↔
      threshold ≤ w.signatures.length ∧ (w.signatures.map (·.signer)).Nodup ∧
        ∀ s ∈ w.signatures, s.signer ∈ peers ∧ s.isValid id = true := by
  unfold verify
  split
  next hfew =>
    constructor
    · exact nofun
    · rintro ⟨hmany, _⟩
      omega
  next hmany =>
    rw [verifySigners_eq_ok]
    simp [Nat.le_of_not_lt hmany]

end QuorumChain.Witness
