import Mathlib.Data.Finset.Card
import QuorumChain.Proofs.Plain
import QuorumChain.Proofs.Ledger.Collector

/-! The support of a staged block: those whose signature its collector has accepted, the own one included.
A collector has one signature of each of them, so it makes a witness exactly when they are enough; and what
it asks of a signature is what is asked again when the witness is verified. -/

namespace QuorumChain

namespace SignatureCollector

/-- Those of whom there is a signature. -/
def signers (c : SignatureCollector) : Finset PublicKey := (c.signatures.map (·.signer)).toFinset

theorem mem_signers {c : SignatureCollector} {key : PublicKey} :
    key ∈ c.signers ↔ ∃ t ∈ c.signatures, t.signer = key := by
  rw [signers, List.mem_toFinset, List.mem_map]

variable [CryptoSuite] {c c' : SignatureCollector} {l : Ledger} {b : Block} {s : CommitSignature}
  {r : Except LedgerError Unit}

/-- Whose signatures are accepted, of those that are offered one after the other. -/
def acceptedSigners : SignatureCollector → List CommitSignature → List PublicKey
  | _, [] => []
  | c, s :: rest =>
    match BlockEngine.applySignature Ledger s c with
    | (.ok (), c') => s.signer :: acceptedSigners c' rest
    | (.error _, c') => acceptedSigners c' rest

/-- A signature is accepted by its signer and its block alone, and kept if it is the first of its signer. -/
theorem offer_cases (h : BlockEngine.applySignature Ledger s c = (r, c')) :
    (r = .ok () ∧ s.signer ∈ c.peers ∧ s.isValid c.id = true ∧
      c'.signers = insert s.signer c.signers ∧ (s.signer ∈ c.signers → c' = c)) ∨
    (∃ e, r = .error e ∧ ¬ (s.signer ∈ c.peers ∧ s.isValid c.id = true) ∧ c' = c) := by
  simp only [BlockEngine.applySignature] at h
  split at h
  next d hd =>
    cases h
    obtain ⟨hpeer, hvalid, ⟨hknown, rfl⟩ | ⟨hnew, rfl⟩⟩ := apply_eq_ok.mp hd
    · exact .inl ⟨rfl, hpeer, hvalid, (Finset.insert_eq_of_mem (mem_signers.mpr hknown)).symm, fun _ => rfl⟩
    · refine .inl ⟨rfl, hpeer, hvalid, ?_, fun hknown => ?_⟩
      · ext key
        simp only [mem_signers, Finset.mem_insert, List.mem_append, List.mem_singleton]
        grind
      · obtain ⟨t, ht, heq⟩ := mem_signers.mp hknown
        exact absurd heq (hnew t ht)
  next e he =>
    cases h
    refine .inr ⟨e, rfl, ?_, rfl⟩
    rintro ⟨hpeer, hvalid⟩
    by_cases hknown : ∃ t ∈ c.signatures, t.signer = s.signer
    · exact nomatch he.symm.trans (apply_eq_ok.mpr ⟨hpeer, hvalid, .inl ⟨hknown, rfl⟩⟩)
    · refine nomatch he.symm.trans (apply_eq_ok.mpr ⟨hpeer, hvalid, .inr ⟨?_, rfl⟩⟩)
      exact fun t ht heq => hknown ⟨t, ht, heq⟩

theorem accepts_iff : (BlockEngine.applySignature Ledger s c).1 = .ok () ↔
    s.signer ∈ c.peers ∧ s.isValid c.id = true := by
  rcases hoffer : BlockEngine.applySignature Ledger s c with ⟨r, d⟩
  rcases offer_cases hoffer with ⟨rfl, hpeer, hvalid, _⟩ | ⟨e, rfl, hnot, _⟩
  · exact ⟨fun _ => ⟨hpeer, hvalid⟩, fun _ => rfl⟩
  · exact ⟨nofun, fun h => absurd h hnot⟩

/-- Nothing changes by a signature that is refused, or of a signer that is known. -/
theorem offer_stays (h : (BlockEngine.applySignature Ledger s c).1 ≠ .ok () ∨ s.signer ∈ c.signers) :
    (BlockEngine.applySignature Ledger s c).2 = c := by
  rcases hoffer : BlockEngine.applySignature Ledger s c with ⟨r, d⟩
  rw [hoffer] at h
  rcases offer_cases hoffer with ⟨rfl, _, _, _, hstays⟩ | ⟨_, _, _, hd⟩
  · exact hstays (h.resolve_left fun hne => hne rfl)
  · exact hd

/-- There is a signature of whoever had one accepted, and of nobody else but who had one before. -/
theorem signers_applyAll (c : SignatureCollector) (signatures : List CommitSignature) :
    (Database.applyAll (σ := Ledger) c signatures).signers =
      c.signers ∪ (c.acceptedSigners signatures).toFinset := by
  induction signatures generalizing c with
  | nil => exact (Finset.union_empty _).symm
  | cons s rest ih =>
      show (Database.applyAll (σ := Ledger) (BlockEngine.applySignature Ledger s c).2 rest).signers = _
      rw [ih, acceptedSigners]
      rcases hoffer : BlockEngine.applySignature Ledger s c with ⟨r, d⟩
      rcases offer_cases hoffer with ⟨rfl, _, _, hsigners, _⟩ | ⟨e, rfl, _, rfl⟩
      · dsimp only
        rw [hsigners, List.toFinset_cons, Finset.insert_union, Finset.union_insert]
      · rfl

/-- A collector has as many signatures as signers. -/
theorem Fits.card_signers (h : c.Fits l b) : c.signers.card = c.signatures.length := by
  rw [signers, List.toFinset_card_of_nodup h.nodup, List.length_map]

/-- A collector makes its witness when its signers are enough, and says otherwise how many there are. -/
theorem Fits.witness_eq (h : c.Fits l b) : BlockEngine.witness Ledger c =
    if l.threshold ≤ c.signers.card then .ok ⟨c.signatures⟩
    else .error (.witnessIncomplete c.signers.card l.threshold) := by
  rw [h.card_signers, ← h.threshold_eq]
  show (if decide _ = true then _ else _) = _
  simp only [decide_eq_true_eq]

end SignatureCollector

namespace Ledger

variable [CryptoSuite]

/-- The collector of a staged block after signatures were offered to it, one after the other. -/
def collectorAfter (l : Ledger) (b : StagedBlock) (signatures : List CommitSignature) : SignatureCollector :=
  Database.applyAll (σ := Ledger) (BlockEngine.collector l b) signatures

/-- The own key, and those whose signature was accepted. -/
def supporters (l : Ledger) (b : StagedBlock) (signatures : List CommitSignature) : Finset PublicKey :=
  insert l.key.publicKey ((BlockEngine.collector l b).acceptedSigners signatures).toFinset

theorem signers_collectorAfter (l : Ledger) (b : StagedBlock) (signatures : List CommitSignature) :
    (l.collectorAfter b signatures).signers = l.supporters b signatures := by
  rw [collectorAfter, SignatureCollector.signers_applyAll]
  show insert l.key.publicKey ∅ ∪ _ = _
  rw [Finset.insert_union, Finset.empty_union]
  rfl

/-- **A witness is made exactly when enough validators support a block, and is always accepted.** Whatever
signatures were offered, a further one is accepted if a validator has made it over the block, and changes
nothing if it is not or if its signer is known. -/
theorem witness_made_iff (l : Ledger) (b : StagedBlock) (hkey : l.key.publicKey ∈ l.peers)
    (hsigns : (CommitSignature.sign b.block.id l.key).isValid b.block.id = true)
    (signatures : List CommitSignature) :
    ((∃ w, BlockEngine.witness Ledger (l.collectorAfter b signatures) = .ok w) ↔
      l.threshold ≤ (l.supporters b signatures).card) ∧
    (∀ w, BlockEngine.witness Ledger (l.collectorAfter b signatures) = .ok w →
      w.verify b.block.id l.peers l.threshold = .ok ()) ∧
    ∀ s, ((BlockEngine.applySignature Ledger s (l.collectorAfter b signatures)).1 = .ok () ↔
        s.signer ∈ l.peers ∧ s.isValid b.block.id = true) ∧
      ((BlockEngine.applySignature Ledger s (l.collectorAfter b signatures)).1 ≠ .ok () ∨
          s.signer ∈ l.supporters b signatures →
        (BlockEngine.applySignature Ledger s (l.collectorAfter b signatures)).2 =
          l.collectorAfter b signatures) := by
  have hfits : (l.collectorAfter b signatures).Fits l b.block :=
    (SignatureCollector.applyAll_spec signatures (.fresh l b)).1
  rw [hfits.witness_eq, l.signers_collectorAfter]
  refine ⟨?_, fun w hw => ?_, fun s => ⟨?_, fun hs => ?_⟩⟩
  · split
    next hmany => exact ⟨fun _ => hmany, fun _ => ⟨_, rfl⟩⟩
    next hfew => exact ⟨nofun, fun h => absurd h hfew⟩
  · split at hw
    next hmany =>
      cases hw
      refine hfits.verify_witness ?_ ?_
      · rw [SignatureCollector.isComplete, hfits.threshold_eq, ← hfits.card_signers,
          l.signers_collectorAfter]
        exact decide_eq_true hmany
      · rw [hfits.own_eq]
        exact ⟨hkey, hsigns⟩
    next => cases hw
  · rw [SignatureCollector.accepts_iff, hfits.peers_eq, hfits.id_eq]
  · rw [← l.signers_collectorAfter] at hs
    exact SignatureCollector.offer_stays hs

end Ledger

section Plain

local instance plainSupportSuite : CryptoSuite := plainSuite

/-- The signature of a validator over the first block. -/
def firstSigned (i : Fin quartet.total) : CommitSignature := .sign (plainBlock 1).id (plainKey i)

/-- A forged signature of validator 2, and twice that of validator 0. -/
def firstOffered : List CommitSignature :=
  [⟨(firstSigned 2).signer, (firstSigned 1).signature⟩, firstSigned 0, firstSigned 0]

/-- Validator 3 and those two are not enough, validator 1 on top is. -/
theorem witness_made_iff_quartet :
    (¬ ∃ w, BlockEngine.witness Ledger
      ((plainLedger (n := quartet) 3).collectorAfter ⟨plainBlock 1, []⟩ firstOffered) = .ok w) ∧
    ∃ w, BlockEngine.witness Ledger ((plainLedger (n := quartet) 3).collectorAfter ⟨plainBlock 1, []⟩
        (firstOffered ++ [firstSigned 1])) = .ok w ∧
      w.verify (plainBlock 1).id (plainLedger (n := quartet) 3).peers 3 = .ok () := by
  have hkey : (plainLedger (n := quartet) 3).key.publicKey ∈ (plainLedger (n := quartet) 3).peers := by
    decide +kernel
  have hmade := Ledger.witness_made_iff (plainLedger (n := quartet) 3) ⟨plainBlock 1, []⟩ hkey
    (plain_sign_valid _ _)
  constructor
  · exact mt (hmade firstOffered).1.mp (by decide +kernel)
  · obtain ⟨w, hw⟩ := (hmade (firstOffered ++ [firstSigned 1])).1.mpr (by decide +kernel)
    exact ⟨w, hw, (hmade _).2.1 w hw⟩

end Plain

end QuorumChain
