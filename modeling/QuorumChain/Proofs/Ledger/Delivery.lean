import QuorumChain.Network
import QuorumChain.Proofs.Ledger.Basic
import QuorumChain.Proofs.Plain
import QuorumChain.Proofs.Wire.Charges

/-! Which of the blocks that a ledger builds the others can read. A ledger goes by the number of
transactions only, and a reader by what it is charged; a block of many transactions, or of long ones,
is built and sent, but nobody reads it. -/

namespace QuorumChain

open Wire Codec

section Build

variable [CryptoSuite]

/-- A ledger that is open builds a block of the first transactions in its queue, if it can tell the
time of day. -/
theorem Ledger.build_made {l : Ledger} {clock : WallClock} {now : Timestamp} (hopen : l.closed = false)
    (hread : clock.read = .ok now) :
    ∃ s, (l.build clock).1 = .ok (.ok s) ∧ s.block.transactions = l.queue.take l.maxTransactions := by
  let txs := l.queue.take l.maxTransactions
  refine ⟨⟨.build l.nextHeight l.bestId now txs, txs⟩, ?_, rfl⟩
  rw [build, hopen, hread]
  rfl

/-- **A block that a ledger builds is read back from its wire form exactly if what stands charged is
within the limit at every moment of reading it.** Otherwise reading stops at the limit, and nothing
arrives where the block is sent. -/
theorem Ledger.built_read_iff {l : Ledger} {clock : WallClock} {now : Timestamp} (hopen : l.closed = false)
    (hread : clock.read = .ok now) :
    ∃ s, (l.build clock).1 = .ok (.ok s) ∧ s.block.transactions = l.queue.take l.maxTransactions ∧
      (Message.codec.decodeWhole (Message.codec.encode (.unfinishedBlock s.block)) =
          .ok (.unfinishedBlock s.block) ↔ s.block.FitsLimit) ∧
      (¬ s.block.FitsLimit →
        Message.codec.decodeWhole (Message.codec.encode (.unfinishedBlock s.block)) =
            .error .limitExceeded ∧
          ∀ sender, Envelope.message? ⟨sender, Message.codec.encode (.unfinishedBlock s.block)⟩ = none) := by
  obtain ⟨s, hbuild, htxs⟩ := build_made hopen hread
  have hcodec := s.block.proposal_read
  refine ⟨s, hbuild, htxs, ?_, fun hfits => ?_⟩
  · by_cases hfits : s.block.FitsLimit
    · rw [if_pos hfits] at hcodec
      exact iff_of_true hcodec hfits
    · rw [if_neg hfits] at hcodec
      rw [hcodec]
      exact iff_of_false nofun hfits
  · rw [if_neg hfits] at hcodec
    refine ⟨hcodec, fun sender => ?_⟩
    rw [Envelope.message?, hcodec]
    rfl

end Build

section Plain

local instance plainDeliverySuite : CryptoSuite := plainSuite

/-- A ledger that puts all transactions that wait into a block. -/
def laden (queue : List Transaction) : Ledger :=
  ⟨plainKey (n := quartet) 0, (plainRoster quartet).keys.toList, queue.length, [], queue, false⟩

/-- A block of two short transactions is read back. -/
theorem built_read_iff_short :
    ∃ s, ((laden [⟨[1]⟩, ⟨[2, 3]⟩]).build ⟨5⟩).1 = .ok (.ok s) ∧
      Message.codec.decodeWhole (Message.codec.encode (.unfinishedBlock s.block)) =
        .ok (.unfinishedBlock s.block) := by
  have hread : (⟨5⟩ : WallClock).read = .ok (.ofNatClamped 5) := by decide
  obtain ⟨s, hbuild, _, hiff, _⟩ := Ledger.built_read_iff (l := laden [⟨[1]⟩, ⟨[2, 3]⟩]) rfl hread
  have hfits : s.block.FitsLimit := by
    cases hbuild
    decide +kernel
  exact ⟨s, hbuild, hiff.mpr hfits⟩

/-- So many transactions without a byte are more than a reader makes room for. -/
theorem built_unreadable :
    ∃ s, ((laden (.replicate 699048 ⟨[]⟩)).build ⟨5⟩).1 = .ok (.ok s) ∧
      Message.codec.decodeWhole (Message.codec.encode (.unfinishedBlock s.block)) =
        .error .limitExceeded := by
  have hread : (⟨5⟩ : WallClock).read = .ok (.ofNatClamped 5) := by decide
  generalize hqueue : List.replicate 699048 (⟨[]⟩ : Transaction) = queue
  obtain ⟨s, hbuild, htxs⟩ := Ledger.build_made (l := laden queue) rfl hread
  have hcount : s.block.transactions.length = 699048 := by
    have htxs : s.block.transactions = queue.take queue.length := htxs
    rw [htxs, List.take_length, ← hqueue, List.length_replicate]
  have hover : ¬ s.block.FitsLimit := by
    intro hfits
    have hroom : s.block.proposalCharge 0 ≤ limit := hfits 0 (Nat.zero_le _)
    have hbase : 65 + 699048 * 24 ≤ s.block.proposalCharge 0 := by
      unfold Block.proposalCharge
      rw [hcount]
      split <;> omega
    exact absurd (Nat.le_trans hbase hroom) (by decide)
  refine ⟨s, hbuild, ?_⟩
  rw [s.block.proposal_read, if_neg hover]

end Plain

end QuorumChain
