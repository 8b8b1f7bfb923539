import QuorumChain.Database
import QuorumChain.Proofs.Ledger.Basic

/-! Collectors of signatures over a staged block. A collector keeps what it has and takes nothing but
valid signatures of validators, one of each, so a collector that is complete makes a witness. -/

namespace QuorumChain.SignatureCollector

variable [CryptoSuite] {c c' : SignatureCollector} {l l' : Ledger} {b : Block} {s : CommitSignature}

theorem apply_eq_ok :
    c.apply s = .ok c' ↔ s.signer ∈ c.peers ∧ s.isValid c.id = true ∧
      (((∃ t ∈ c.signatures, t.signer = s.signer) ∧ c' = c) ∨
        ((∀ t ∈ c.signatures, t.signer ≠ s.signer) ∧
          c' = { c with signatures := c.signatures ++ [s] })) := by
  unfold apply
  split
  next hp => simp [hp]
  next hp =>
    rw [Decidable.not_not] at hp
    split
    next hv => simp_all
    next hv =>
      simp only [Bool.not_eq_true, Bool.not_eq_false'] at hv
      simp only [hp, hv, true_and]
      split
      next hany =>
        have hmem : ∃ t ∈ c.signatures, t.signer = s.signer := by simpa using hany
        grind
      next hany =>
        have hnone : ∀ t ∈ c.signatures, t.signer ≠ s.signer := by simpa using hany
        grind

/-- What a collector has after a signature was offered to it. -/
theorem apply_signatures (h : c.apply s = .ok c') :
    c.signatures ⊆ c'.signatures ∧ (∀ t ∈ c'.signatures, t ∈ c.signatures ∨ t = s) ∧
      ∃ t ∈ c'.signatures, t.signer = s.signer := by
  obtain ⟨_, _, ⟨hmem, rfl⟩ | ⟨_, rfl⟩⟩ := apply_eq_ok.mp h
  · exact ⟨fun _ ht => ht, fun t ht => .inl ht, hmem⟩
  · refine ⟨List.subset_append_left _ _, fun t ht => ?_, s, by simp, rfl⟩
    simpa using ht

/-- A collector over a block that is staged on a ledger. -/
structure Fits (c : SignatureCollector) (l : Ledger) (b : Block) : Prop where
  id_eq : c.id = b.id
  own_eq : c.own = .sign b.id l.key
  peers_eq : c.peers = l.peers
  threshold_eq : c.threshold = l.threshold
  own_mem : c.own ∈ c.signatures
  nodup : (c.signatures.map (·.signer)).Nodup
  genuine : ∀ t ∈ c.signatures, t = c.own ∨ t.signer ∈ c.peers ∧ t.isValid c.id = true

namespace Fits

theorem fresh (l : Ledger) (b : StagedBlock) : (l.collector b).Fits l b.block :=
  ⟨rfl, rfl, rfl, rfl, List.mem_singleton.mpr rfl, by simp [Ledger.collector],
    fun t ht => .inl (List.mem_singleton.mp ht)⟩

/-- What a collector is made of does not change with the queue or the chain. -/
theorem transfer (h : c.Fits l b) (hkey : l'.key = l.key) (hpeers : l'.peers = l.peers) :
    c.Fits l' b where
  id_eq := h.id_eq
  own_eq := hkey ▸ h.own_eq
  peers_eq := hpeers ▸ h.peers_eq
  threshold_eq := by
    rw [h.threshold_eq, Ledger.threshold, Ledger.threshold, hpeers]
  own_mem := h.own_mem
  nodup := h.nodup
  genuine := h.genuine

theorem apply (h : c.Fits l b) (hs : c.apply s = .ok c') : c'.Fits l b := by
  obtain ⟨hpeer, hvalid, ⟨_, rfl⟩ | ⟨hnew, rfl⟩⟩ := apply_eq_ok.mp hs
  · exact h
  · refine ⟨h.id_eq, h.own_eq, h.peers_eq, h.threshold_eq, List.mem_append_left _ h.own_mem, ?_, ?_⟩
    · rw [List.map_append, List.nodup_append]
      refine ⟨h.nodup, by simp, ?_⟩
      intro key hkey other hother heq
      obtain ⟨t, ht, rfl⟩ := List.mem_map.mp hkey
      have hsame : other = s.signer := by simpa using hother
      exact hnew t ht (heq.trans hsame)
    · intro t ht
      rcases List.mem_append.mp ht with ht | ht
      · exact h.genuine t ht
      · rw [List.mem_singleton.mp ht]
        exact .inr ⟨hpeer, hvalid⟩

/-- A collector with signatures of enough different validators is complete. -/
theorem isComplete_of_signers (h : c.Fits l b) {signers : List PublicKey} (hnodup : signers.Nodup)
    (hall : ∀ key ∈ signers, ∃ t ∈ c.signatures, t.signer = key)
    (hmany : l.threshold ≤ signers.length) : c.isComplete = true := by
  have hsubset : signers ⊆ c.signatures.map (·.signer) := fun key hkey =>
    List.mem_map.mpr (hall key hkey)
  have hlength := hnodup.length_le_of_subset hsubset
  rw [List.length_map] at hlength
  rw [isComplete, h.threshold_eq]
  exact decide_eq_true (Nat.le_trans hmany hlength)

/-- A complete collector stays complete when signatures are added. -/
theorem isComplete_of_subset (h : c.Fits l b) (h' : c'.Fits l b) (hcomplete : c.isComplete = true)
    (hsubset : c.signatures ⊆ c'.signatures) : c'.isComplete = true := by
  refine h'.isComplete_of_signers h.nodup (fun key hkey => ?_) ?_
  · obtain ⟨t, ht, rfl⟩ := List.mem_map.mp hkey
    exact ⟨t, hsubset ht, rfl⟩
  · rw [List.length_map, ← h.threshold_eq]
    exact of_decide_eq_true hcomplete

end Fits

theorem applySignature_cases {r : Except LedgerError Unit}
    (h : BlockEngine.applySignature Ledger s c = (r, c')) :
    (r = .ok () ∧ c.apply s = .ok c') ∨ (∃ e, r = .error e ∧ c' = c) := by
  simp only [BlockEngine.applySignature] at h
  split at h
  next d hd =>
    cases h
    exact .inl ⟨rfl, hd⟩
  next e _ =>
    cases h
    exact .inr ⟨e, rfl, rfl⟩

/-- A collector that signatures are offered to one after the other. -/
theorem applyAll_spec (signatures : List CommitSignature) (h : c.Fits l b) :
    (Database.applyAll (σ := Ledger) c signatures).Fits l b ∧
      c.signatures ⊆ (Database.applyAll (σ := Ledger) c signatures).signatures ∧
      ∀ t ∈ (Database.applyAll (σ := Ledger) c signatures).signatures,
        t ∈ c.signatures ∨ t ∈ signatures := by
  induction signatures generalizing c with
  | nil => exact ⟨h, fun _ ht => ht, fun t ht => .inl ht⟩
  | cons s rest ih =>
      rcases happly : BlockEngine.applySignature Ledger s c with ⟨r, d⟩
      have hstep : d.Fits l b ∧ c.signatures ⊆ d.signatures ∧
          ∀ t ∈ d.signatures, t ∈ c.signatures ∨ t = s := by
        rcases applySignature_cases happly with ⟨_, hd⟩ | ⟨e, _, rfl⟩
        · obtain ⟨hkeep, hnew, _⟩ := apply_signatures hd
          exact ⟨h.apply hd, hkeep, hnew⟩
        · exact ⟨h, fun _ ht => ht, fun t ht => .inl ht⟩
      obtain ⟨hfits, hkeep, hnew⟩ := hstep
      have hall : Database.applyAll (σ := Ledger) c (s :: rest) =
          Database.applyAll (σ := Ledger) d rest := by
        show Database.applyAll (σ := Ledger) (BlockEngine.applySignature Ledger s c).2 rest = _
        rw [happly]
      rw [hall]
      obtain ⟨hfits', hkeep', hnew'⟩ := ih hfits
      refine ⟨hfits', fun t ht => hkeep' (hkeep ht), fun t ht => ?_⟩
      rcases hnew' t ht with ht | ht
      · rcases hnew t ht with ht | rfl
        · exact .inl ht
        · exact .inr List.mem_cons_self
      · exact .inr (List.mem_cons_of_mem _ ht)

/-- The witness of a complete collector is accepted, if the own signature is valid. -/
theorem Fits.verify_witness (h : c.Fits l b) (hcomplete : c.isComplete = true)
    (hown : c.own.signer ∈ l.peers ∧ c.own.isValid b.id = true) :
    Witness.verify ⟨c.signatures⟩ b.id l.peers l.threshold = .ok () := by
  rw [Witness.verify_eq_ok]
  refine ⟨?_, h.nodup, fun t ht => ?_⟩
  · rw [← h.threshold_eq]
    simpa [isComplete] using hcomplete
  · rcases h.genuine t ht with rfl | ⟨hpeer, hvalid⟩
    · exact hown
    · exact ⟨h.peers_eq ▸ hpeer, h.id_eq ▸ hvalid⟩

end QuorumChain.SignatureCollector
