import QuorumChain.Ledger
import QuorumChain.Proofs.Block.Witness
import QuorumChain.Proofs.Change

/-! What the operations of a ledger do. A block is stored exactly if it extends the chain and has a
witness, and everything else changes the queue at most. -/

namespace QuorumChain.Ledger

variable {l l' : Ledger} {b : Block} {w : Witness}

/-- The blocks are stored by height. -/
def Ordered (l : Ledger) : Prop :=
  ∀ (k : Nat) (b : WitnessedBlock), l.blocks[k]? = some b → b.block.height.number = k

theorem Ordered.number_best (h : l.Ordered) {best : Height} (hbest : l.bestHeight = some best) :
    l.blocks.length = best.number + 1 := by
  rw [bestHeight, Option.map_eq_some_iff] at hbest
  obtain ⟨b, hb, rfl⟩ := hbest
  rw [List.getLast?_eq_getElem?] at hb
  have hheight := h _ _ hb
  have hlt := (List.getElem?_eq_some_iff.mp hb).1
  omega

/-- A block of a chain with one more block on top. -/
theorem stored_cases {blocks : List WitnessedBlock} {top a : WitnessedBlock} {k : Nat}
    (h : (blocks ++ [top])[k]? = some a) :
    (k < blocks.length ∧ blocks[k]? = some a) ∨ (k = blocks.length ∧ a = top) := by
  by_cases hk : k < blocks.length
  · rw [List.getElem?_append_left hk] at h
    exact .inl ⟨hk, h⟩
  · have hlt := (List.getElem?_eq_some_iff.mp h).1
    rw [List.length_append, List.length_singleton] at hlt
    obtain rfl : k = blocks.length := by omega
    rw [List.getElem?_concat_length] at h
    exact .inr ⟨rfl, (Option.some.inj h).symm⟩

/-- The second ledger differs in its queue at most. -/
def Requeued (l l' : Ledger) : Prop := ∃ queue, l' = { l with queue }

namespace Requeued

theorem refl (l : Ledger) : l.Requeued l := ⟨l.queue, rfl⟩

theorem trans {l'' : Ledger} (h : l.Requeued l') (h' : l'.Requeued l'') : l.Requeued l'' := by
  obtain ⟨queue, rfl⟩ := h
  obtain ⟨queue', rfl⟩ := h'
  exact ⟨queue', rfl⟩

theorem blocks_eq (h : l.Requeued l') : l'.blocks = l.blocks := by
  obtain ⟨queue, rfl⟩ := h
  rfl

theorem settings_eq (h : l.Requeued l') : l'.key = l.key ∧ l'.peers = l.peers := by
  obtain ⟨queue, rfl⟩ := h
  exact ⟨rfl, rfl⟩

end Requeued

theorem rollback_requeued (b : StagedBlock) (l : Ledger) : l.Requeued (l.rollback b) := ⟨_, rfl⟩

theorem number_nextHeight (h : l.blocks.length < 2 ^ 64) : l.nextHeight.number = l.blocks.length := by
  show min l.blocks.length (2 ^ 64 - 1) = l.blocks.length
  omega

variable [CryptoSuite]

theorem signatureOver?_eq_some {id : BlockId} {s : CommitSignature} :
    l.signatureOver? id = some s ↔ (∃ b ∈ l.blocks, b.id = id) ∧ s = .sign id l.key := by
  unfold signatureOver?
  split
  next h =>
    have hmem : ∃ b ∈ l.blocks, b.id = id := by simpa using h
    constructor
    · intro hs
      exact ⟨hmem, (Option.some.inj hs).symm⟩
    · rintro ⟨_, rfl⟩
      rfl
  next h =>
    have hmem : ¬ ∃ b ∈ l.blocks, b.id = id := by simpa using h
    simp [hmem]

theorem checkExtends_eq_ok :
    l.checkExtends b = .ok () ↔ b.height = l.nextHeight ∧ b.header.parent = l.bestId := by
  unfold checkExtends
  split
  next h => simp [h]
  next h =>
    split
    next hp => simp [hp]
    next hp => simp [Decidable.not_not.mp h, Decidable.not_not.mp hp]

/-- What extends a chain does not depend on the queue. -/
theorem Requeued.checkExtends_eq (h : l.Requeued l') (b : Block) :
    l'.checkExtends b = l.checkExtends b := by
  obtain ⟨queue, rfl⟩ := h
  rfl

theorem check_eq_ok :
    l.check b = .ok () ↔ l.closed = false ∧ b.isConsistent = true ∧
      b.transactions.length ≤ l.maxTransactions ∧ l.checkExtends b = .ok () := by
  unfold check
  split
  next h => simp [h]
  next h =>
    split
    next hc => simp_all
    next hc =>
      split
      next ht =>
        simp only [reduceCtorEq, false_iff, not_and]
        intro _ _ hle
        omega
      next ht => simp_all

theorem checkCommit_eq_ok :
    l.checkCommit b w = .ok () ↔
      w.verify b.id l.peers l.threshold = .ok () ∧ l.checkExtends b = .ok () := by
  unfold checkCommit
  cases w.verify b.id l.peers l.threshold with
  | error e => exact ⟨nofun, fun h => nomatch h.1⟩
  | ok u => exact ⟨fun h => ⟨rfl, h⟩, fun h => h.2⟩

theorem Requeued.checkCommit_eq (h : l.Requeued l') (b : Block) (w : Witness) :
    l'.checkCommit b w = l.checkCommit b w := by
  obtain ⟨queue, rfl⟩ := h
  rfl

theorem load_cases {r : Except (Refusal StagedBlock LedgerError) StagedBlock}
    (h : l.load b = (r, l')) :
    l' = l ∧ ((r = .ok ⟨b, []⟩ ∧ l.check b = .ok ()) ∨ ∃ e, r = .error ⟨none, e⟩) := by
  unfold load at h
  split at h
  next hc =>
    cases h
    exact ⟨rfl, .inl ⟨rfl, hc⟩⟩
  next e _ =>
    cases h
    exact ⟨rfl, .inr ⟨e, rfl⟩⟩

theorem build_cases {clock : WallClock}
    {r : Except Fault (Except (Refusal StagedBlock LedgerError) StagedBlock)}
    (h : l.build clock = (r, l')) :
    l.Requeued l' ∧ ((∃ fault, r = .error fault) ∨ (∃ e, r = .ok (.error ⟨none, e⟩)) ∨
      ∃ b, r = .ok (.ok b) ∧ l.checkExtends b.block = .ok ()) := by
  unfold build at h
  split at h
  · cases h
    exact ⟨.refl l, .inr (.inl ⟨_, rfl⟩)⟩
  · cases h
    refine ⟨⟨_, rfl⟩, ?_⟩
    cases clock.read with
    | error fault => exact .inl ⟨fault, rfl⟩
    | ok now => exact .inr (.inr ⟨_, rfl, checkExtends_eq_ok.mpr ⟨rfl, rfl⟩⟩)

/-- A block that is built holds the first transactions of the queue. -/
theorem build_eq_ok {clock : WallClock} {s : StagedBlock} (h : l.build clock = (.ok (.ok s), l')) :
    ∃ now, s.block = .build l.nextHeight l.bestId now (l.queue.take l.maxTransactions) ∧
      s.requeue = l.queue.take l.maxTransactions := by
  unfold build at h
  split at h
  · cases h
  · cases hread : clock.read with
    | error fault =>
        rw [hread] at h
        cases h
    | ok now =>
        rw [hread] at h
        cases h
        exact ⟨now, rfl, rfl⟩

theorem commit_cases {s : StagedBlock} {r : Except LedgerError Unit} (h : l.commit s w = (r, l')) :
    (r = .ok () ∧ l.checkCommit s.block w = .ok () ∧
        ∃ queue, l' = { l with queue, blocks := l.blocks ++ [⟨s.block, w⟩] }) ∨
      (∃ e, r = .error e ∧ l.checkCommit s.block w = .error e ∧ l.Requeued l') := by
  unfold commit at h
  split at h
  next e he =>
    cases h
    exact .inr ⟨e, rfl, he, rollback_requeued s l⟩
  next hok =>
    cases h
    exact .inl ⟨rfl, hok, _, rfl⟩

end QuorumChain.Ledger
