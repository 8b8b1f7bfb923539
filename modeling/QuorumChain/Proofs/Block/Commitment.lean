import QuorumChain.Block.Identity
import QuorumChain.Proofs.Plain
import QuorumChain.Proofs.Wire.Forms

/-! What an identifier commits to. The header is written in a form of its own, and so is a list of
transactions: where one ends and the next one starts can be told from their lengths. Hence two blocks of
one identifier are the same block, unless the hash takes two strings that were hashed for them to one. -/

namespace QuorumChain

open Wire

/-- The fields of a header take little room. -/
theorem Header.cost_le_limit (h : Header) : Header.codec.cost h ≤ limit := by
  have hparent : BlockId.codec.option.cost h.parent ≤ 33 := by
    cases h.parent with
    | none => exact Nat.le_of_ble_eq_true rfl
    | some id => exact Nat.le_refl 33
  show 8 + (BlockId.codec.option.cost h.parent + (8 + (4 + 32))) ≤ limit
  unfold limit
  omega

theorem Header.encode_injective : Function.Injective Header.codec.encode := by
  intro g h heq
  have hread : Header.codec.decodeWhole (Header.codec.encode h) = .ok h :=
    (Header.lawful_codec.decodeWhole_encode h).resolve_right fun hover =>
      Nat.not_lt_of_le h.cost_le_limit hover.1
  exact Header.lawful_codec.eq_of_encode_eq hread heq

theorem bytesOfNat_inj {n v w : Nat} (hv : v < 256 ^ n) (hw : w < 256 ^ n) (h : bytesOfNat n v = bytesOfNat n w) :
    v = w := by
  have hnat := congrArg natOfBytes h
  rwa [natOfBytes_bytesOfNat, natOfBytes_bytesOfNat, Nat.mod_eq_of_lt hv, Nat.mod_eq_of_lt hw] at hnat

/-- The length is a machine word. No byte string that a machine holds is longer. -/
def Transaction.IsSized (tx : Transaction) : Prop := tx.bytes.length < 2 ^ 64

instance (tx : Transaction) : Decidable tx.IsSized := inferInstanceAs (Decidable (_ < _))

theorem payloadBytes_cons {tx : Transaction} (htx : tx.IsSized) (txs : List Transaction) :
    payloadBytes (tx :: txs) = bytesOfNat 8 tx.bytes.length ++ (tx.bytes ++ payloadBytes txs) := by
  have hlen : min tx.bytes.length (2 ^ 64 - 1) = tx.bytes.length := Nat.min_eq_left (Nat.le_pred_of_lt htx)
  unfold payloadBytes
  rw [List.flatMap_cons, hlen, List.append_assoc]

/-- The hashed transactions can be told from each other, and from those of another list. -/
theorem payloadBytes_inj {s t : List Transaction} (hs : ∀ tx ∈ s, tx.IsSized) (ht : ∀ tx ∈ t, tx.IsSized)
    (h : payloadBytes s = payloadBytes t) : s = t := by
  induction s generalizing t with
  | nil =>
      cases t with
      | nil => rfl
      | cons b t =>
          rw [payloadBytes_cons (ht b List.mem_cons_self)] at h
          cases h
  | cons a s ih =>
      have ha : a.IsSized := hs a List.mem_cons_self
      rw [payloadBytes_cons ha] at h
      cases t with
      | nil => cases h
      | cons b t =>
          have hb : b.IsSized := ht b List.mem_cons_self
          rw [payloadBytes_cons hb] at h
          obtain ⟨hlength, hrest⟩ := List.append_inj h (by simp only [length_bytesOfNat])
          have hlen : a.bytes.length = b.bytes.length := bytesOfNat_inj ha hb hlength
          obtain ⟨hbytes, hrest⟩ := List.append_inj hrest hlen
          rw [Transaction.ext hbytes, ih (fun tx htx => hs tx (List.mem_cons_of_mem a htx))
            (fun tx htx => ht tx (List.mem_cons_of_mem b htx)) hrest]

/-- The hash keeps two byte strings apart, unless they are the same. -/
def HashSeparates [CryptoSuite] (x y : List UInt8) : Prop := CryptoSuite.hash x = CryptoSuite.hash y → x = y

instance [CryptoSuite] (x y : List UInt8) : Decidable (HashSeparates x y) := inferInstanceAs (Decidable (_ → _))

namespace Block

variable [CryptoSuite] {a b : Block}

omit [CryptoSuite] in
theorem toNat_payloadLength (transactions : List Transaction) :
    (payloadLength transactions).toNat = min transactions.length (2 ^ 32 - 1) := by
  have hlt : min transactions.length (2 ^ 32 - 1) < 2 ^ 32 := by omega
  rw [payloadLength, UInt32.toNat_ofNat']
  exact Nat.mod_eq_of_lt hlt

/-- A header counts in 32 bits, so no more transactions than that are consistent with one. -/
theorem isConsistent_iff :
    b.isConsistent = true ↔ b.header.payloadHash = payloadHash b.transactions ∧
      b.header.payloadLength = payloadLength b.transactions ∧ b.transactions.length < 2 ^ 32 := by
  unfold isConsistent
  rw [Bool.and_eq_true, beq_iff_eq, beq_iff_eq]
  constructor
  · rintro ⟨hlength, hhash⟩
    have hlt : b.transactions.length < 2 ^ 32 := hlength ▸ b.header.payloadLength.toNat_lt
    refine ⟨hhash.symm, UInt32.toNat_inj.mp ?_, hlt⟩
    rw [toNat_payloadLength, ← hlength]
    omega
  · rintro ⟨hhash, hlength, hlt⟩
    refine ⟨?_, hhash.symm⟩
    rw [hlength, toNat_payloadLength]
    omega

theorem header_eq (hheader : HashSeparates (Header.codec.encode a.header) (Header.codec.encode b.header))
    (h : a.id = b.id) : a.header = b.header := by
  have hhash := congrArg BlockId.raw h
  exact Header.encode_injective (hheader hhash)

theorem transactions_eq (ha : a.isConsistent = true) (hb : b.isConsistent = true)
    (hsized : ∀ tx ∈ a.transactions ++ b.transactions, tx.IsSized)
    (hpayload : HashSeparates (payloadBytes a.transactions) (payloadBytes b.transactions))
    (h : a.header = b.header) : a.transactions = b.transactions := by
  have hhash : payloadHash a.transactions = payloadHash b.transactions := by
    rw [← (isConsistent_iff.mp ha).1, ← (isConsistent_iff.mp hb).1, h]
  have hbytes := hpayload (congrArg PayloadHash.raw hhash)
  exact payloadBytes_inj (fun tx htx => hsized tx (List.mem_append_left _ htx))
    (fun tx htx => hsized tx (List.mem_append_right _ htx)) hbytes

/-- The identifier of a block commits to all of it, as the hashed strings leave nothing open. -/
theorem id_commits :
    Function.Injective Header.codec.encode ∧
      (∀ s t : List Transaction, (∀ tx ∈ s ++ t, tx.IsSized) → payloadBytes s = payloadBytes t → s = t) ∧
      ∀ a b : Block, a.isConsistent = true → b.isConsistent = true →
        (∀ tx ∈ a.transactions ++ b.transactions, tx.IsSized) →
        HashSeparates (Header.codec.encode a.header) (Header.codec.encode b.header) →
        HashSeparates (payloadBytes a.transactions) (payloadBytes b.transactions) →
        a.id = b.id → a = b := by
  refine ⟨Header.encode_injective, fun s t hsized h => ?_, fun a b ha hb hsized hheader hpayload h => ?_⟩
  · exact payloadBytes_inj (fun tx htx => hsized tx (List.mem_append_left t htx))
      (fun tx htx => hsized tx (List.mem_append_right s htx)) h
  · have hheaders : a.header = b.header := header_eq hheader h
    exact Block.ext hheaders (transactions_eq ha hb hsized hpayload hheaders)

end Block

section Plain

local instance plainCommitmentSuite : CryptoSuite := plainSuite

/-- The bytes 1, 2, 3 in two transactions, the first one of one byte or of two. -/
def splitEarly : Block := .build .zero none (.ofNatClamped 1) [⟨[1]⟩, ⟨[2, 3]⟩]

def splitLate : Block := .build .zero none (.ofNatClamped 1) [⟨[1, 2]⟩, ⟨[3]⟩]

theorem id_commits_to_split :
    splitEarly.isConsistent = true ∧ splitLate.isConsistent = true ∧ splitEarly.id ≠ splitLate.id := by
  refine ⟨by decide +kernel, by decide +kernel, fun h => ?_⟩
  have heq : splitEarly = splitLate :=
    Block.id_commits.2.2 splitEarly splitLate (by decide +kernel) (by decide +kernel) (by decide +kernel)
      (by decide +kernel) (by decide +kernel) h
  exact absurd (congrArg Block.transactions heq) (by decide)

end Plain

end QuorumChain
