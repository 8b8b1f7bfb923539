import QuorumChain.Proofs.Wire.Lawful
import QuorumChain.Wire.Forms

/-! Blocks, statuses and messages on the wire: what is written is read back, and what is read is what
was written but for the length of numbers. -/

namespace QuorumChain

open Wire Codec

section Tags

variable {α β : Type} {c : Codec α} {f : α → Decoder β} {g : Nat → Decoder β} {bs rest : List UInt8}
  {k k' t : Nat} {y : β}

theorem tag_written (h : t < 2 ^ 32) : Yields takeTag (tagBytes t) 4 t :=
  (varint_written (.inl h)).charged 4

theorem tag_read (h : takeTag ⟨bs, k⟩ = .ok (t, ⟨rest, k'⟩)) :
    ∃ taken, bs = taken ++ rest ∧ Respells takeTag taken (tagBytes t) k t k' := by
  obtain ⟨hle, h⟩ := charged_eq_ok h
  obtain ⟨rfl, taken, rfl, hspell, _, _⟩ := varint_read h
  exact ⟨taken, rfl, hspell.charged hle⟩

/-- A variant that holds a value of its own. -/
theorem variant_written (hc : c.Lawful) (ht : t < 2 ^ 32) (hg : g t = (c.decode >>= f)) {x : α} (hf : f x = pure y) :
    Yields (takeTag >>= g) (tagBytes t ++ c.encode x) (4 + c.cost x) y := by
  refine (tag_written ht).bind ?_
  rw [hg]
  exact (hc.written x).into hf

/-- What is read after a tag `t` is respelled by any choice `g` between the tags that goes on so at `t`. -/
theorem variant_read (hc : c.Lawful) (wrap : α → β) {r : List UInt8} {k₁ : Nat}
    (ht : takeTag ⟨bs, k⟩ = .ok (t, ⟨r, k₁⟩))
    (h : (c.decode >>= fun x => pure (wrap x)) ⟨r, k₁⟩ = .ok (y, ⟨rest, k'⟩)) :
    ∃ x, y = wrap x ∧ ∃ taken, bs = taken ++ rest ∧
      ∀ g : Nat → Decoder β, g t = (c.decode >>= fun x => pure (wrap x)) →
        Respells (takeTag >>= g) taken (tagBytes t ++ c.encode x) k (wrap x) k' := by
  obtain ⟨p, rfl, htag⟩ := tag_read ht
  obtain ⟨x, r', k₂, hx, hvalue⟩ := sequence_eq_ok.mp h
  cases hvalue
  obtain ⟨q, rfl, hspell⟩ := hc.read hx
  refine ⟨x, rfl, p ++ q, (List.append_assoc p q rest).symm, fun g hg => htag.bind ?_⟩
  rw [hg]
  exact hspell.into rfl

end Tags

theorem BlockId.lawful_codec : BlockId.codec.Lawful :=
  (lawful_fixed 32).via (fun _ => rfl) (fun _ => rfl)

theorem PayloadHash.lawful_codec : PayloadHash.codec.Lawful :=
  (lawful_fixed 32).via (fun _ => rfl) (fun _ => rfl)

theorem PublicKey.lawful_codec : PublicKey.codec.Lawful :=
  (lawful_fixed 32).via (fun _ => rfl) (fun _ => rfl)

theorem Signature.lawful_codec : Signature.codec.Lawful :=
  (lawful_fixed 64).via (fun _ => rfl) (fun _ => rfl)

theorem PeerSet.lawful_codec : PeerSet.codec.Lawful :=
  (lawful_fixed 32).via (fun _ => rfl) (fun _ => rfl)

theorem ValidatorCount.lawful_codec : ValidatorCount.codec.Lawful := by
  refine lawful_byte.via (fun n => ?_) (fun b => UInt8.ofNat_toNat)
  apply ValidatorCount.ext
  exact (UInt8.toNat_ofNat' ..).trans (Nat.mod_eq_of_lt n.total_lt)

theorem Transaction.lawful_codec : Transaction.codec.Lawful :=
  lawful_bytes.via (fun _ => rfl) (fun _ => rfl)

theorem CommitSignature.lawful_codec : CommitSignature.codec.Lawful :=
  (PublicKey.lawful_codec.pair Signature.lawful_codec).via (fun _ => rfl) (fun _ => rfl)

theorem Witness.lawful_codec : Witness.codec.Lawful :=
  (CommitSignature.lawful_codec.list (by decide)).via (fun _ => rfl) (fun _ => rfl)

theorem Header.lawful_codec : Header.codec.Lawful :=
  ((lawful_counterBytes .height).pair <| BlockId.lawful_codec.option.pair <|
    (lawful_counterBytes .timestamp).pair <| lawful_u32.pair PayloadHash.lawful_codec).via
      (fun _ => rfl) (fun _ => rfl)

theorem Block.lawful_codec : Block.codec.Lawful :=
  (Header.lawful_codec.pair (Transaction.lawful_codec.list (by decide))).via (fun _ => rfl) (fun _ => rfl)

theorem WitnessedBlock.lawful_codec : WitnessedBlock.codec.Lawful :=
  (Block.lawful_codec.pair Witness.lawful_codec).via (fun _ => rfl) (fun _ => rfl)

theorem Phase.lawful_codec : Phase.codec.Lawful where
  written p := by
    cases p with
    | waitBlock => exact (tag_written (by decide : 0 < 2 ^ 32)).into rfl
    | haveBlock => exact (tag_written (by decide : 1 < 2 ^ 32)).into rfl
    | prepared => exact (tag_written (by decide : 2 < 2 ^ 32)).into rfl
  read h := by
    obtain ⟨t, r, k₁, ht, hvalue⟩ := sequence_eq_ok.mp h
    obtain ⟨taken, rfl, hspell⟩ := tag_read ht
    split at hvalue <;> cases hvalue
    · exact ⟨taken, rfl, hspell.into rfl⟩
    · exact ⟨taken, rfl, hspell.into rfl⟩
    · exact ⟨taken, rfl, hspell.into rfl⟩

theorem Status.lawful_codec : Status.codec.Lawful :=
  ((lawful_counterBytes .height).pair <| (lawful_counterBytes .round).pair <| Phase.lawful_codec.pair <|
    BlockId.lawful_codec.option.pair <| lawful_bool.pair (lawful_counter .serial)).via
      (fun _ => rfl) (fun _ => rfl)

theorem lawful_completeBlockCodec : completeBlockCodec.Lawful :=
  (lawful_counterBytes .height).pair WitnessedBlock.lawful_codec

theorem lawful_blockSignatureCodec : blockSignatureCodec.Lawful :=
  BlockId.lawful_codec.pair CommitSignature.lawful_codec

theorem Message.lawful_codec : Message.codec.Lawful where
  written m := by
    cases m with
    | status s => exact variant_written Status.lawful_codec (by decide) rfl rfl
    | getUnfinishedBlock id => exact variant_written BlockId.lawful_codec (by decide) rfl rfl
    | unfinishedBlock b => exact variant_written Block.lawful_codec (by decide) rfl rfl
    | getBlockAtHeight height => exact variant_written (lawful_counterBytes .height) (by decide) rfl rfl
    | completeBlock height b => exact variant_written lawful_completeBlockCodec (by decide) rfl rfl
    | getBlockSignature id => exact variant_written BlockId.lawful_codec (by decide) rfl rfl
    | blockSignature id s => exact variant_written lawful_blockSignatureCodec (by decide) rfl rfl
  read h := by
    obtain ⟨t, r, k₁, ht, hvalue⟩ := sequence_eq_ok.mp h
    split at hvalue
    · obtain ⟨s, rfl, taken, rfl, hspell⟩ := variant_read Status.lawful_codec Message.status ht hvalue
      exact ⟨taken, rfl, hspell _ rfl⟩
    · obtain ⟨id, rfl, taken, rfl, hspell⟩ :=
        variant_read BlockId.lawful_codec Message.getUnfinishedBlock ht hvalue
      exact ⟨taken, rfl, hspell _ rfl⟩
    · obtain ⟨b, rfl, taken, rfl, hspell⟩ := variant_read Block.lawful_codec Message.unfinishedBlock ht hvalue
      exact ⟨taken, rfl, hspell _ rfl⟩
    · obtain ⟨height, rfl, taken, rfl, hspell⟩ :=
        variant_read (lawful_counterBytes .height) Message.getBlockAtHeight ht hvalue
      exact ⟨taken, rfl, hspell _ rfl⟩
    · obtain ⟨b, rfl, taken, rfl, hspell⟩ :=
        variant_read lawful_completeBlockCodec (fun b => Message.completeBlock b.1 b.2) ht hvalue
      exact ⟨taken, rfl, hspell _ rfl⟩
    · obtain ⟨id, rfl, taken, rfl, hspell⟩ := variant_read BlockId.lawful_codec Message.getBlockSignature ht hvalue
      exact ⟨taken, rfl, hspell _ rfl⟩
    · obtain ⟨s, rfl, taken, rfl, hspell⟩ :=
        variant_read lawful_blockSignatureCodec (fun s => Message.blockSignature s.1 s.2) ht hvalue
      exact ⟨taken, rfl, hspell _ rfl⟩
    · cases hvalue

/-- What validators send and keep in wire form. -/
inductive WireType where
  | message
  | status
  | header
  | block
  | witness
  | commitSignature
  | peerSet
  | validatorCount

namespace WireType

abbrev Value : WireType → Type
  | message => Message
  | status => Status
  | header => Header
  | block => Block
  | witness => Witness
  | commitSignature => CommitSignature
  | peerSet => PeerSet
  | validatorCount => ValidatorCount

def codec : (t : WireType) → Codec t.Value
  | message => Message.codec
  | status => Status.codec
  | header => Header.codec
  | block => Block.codec
  | witness => Witness.codec
  | commitSignature => CommitSignature.codec
  | peerSet => PeerSet.codec
  | validatorCount => ValidatorCount.codec

theorem lawful (t : WireType) : t.codec.Lawful := by
  cases t with
  | message => exact Message.lawful_codec
  | status => exact Status.lawful_codec
  | header => exact Header.lawful_codec
  | block => exact Block.lawful_codec
  | witness => exact Witness.lawful_codec
  | commitSignature => exact CommitSignature.lawful_codec
  | peerSet => exact PeerSet.lawful_codec
  | validatorCount => exact ValidatorCount.lawful_codec

/-- Reading what was written gives the value back, or stops at the limit; it gives it back if all that
reading charges for the value, without what it takes back, is within the limit. -/
theorem encoded_reads_back (t : WireType) (x : t.Value) :
    (t.codec.decodeWhole (t.codec.encode x) = .ok x ∨
      t.codec.decodeWhole (t.codec.encode x) = .error .limitExceeded) ∧
    (t.codec.cost x ≤ limit → t.codec.decodeWhole (t.codec.encode x) = .ok x) := by
  rcases t.lawful.decodeWhole_encode x with hread | ⟨hover, hstop⟩
  · exact ⟨.inl hread, fun _ => hread⟩
  · exact ⟨.inr hstop, fun hle => absurd hle (Nat.not_le_of_lt hover)⟩

/-- A committed block of two transactions in answer to a request. -/
def sampleAnswer : Message :=
  .completeBlock .zero
    ⟨⟨⟨.zero, none, .ofNatClamped 7, 3, ⟨.zero 32⟩⟩, [⟨[1]⟩, ⟨[2, 3]⟩]⟩, ⟨[⟨⟨.zero 32⟩, ⟨.zero 64⟩⟩]⟩⟩

theorem encoded_reads_back_answer :
    message.codec.cost sampleAnswer ≤ limit ∧
      message.codec.decodeWhole (message.codec.encode sampleAnswer) = .ok sampleAnswer := by
  have hcost : message.codec.cost sampleAnswer ≤ limit := by decide +kernel
  exact ⟨hcost, (encoded_reads_back message sampleAnswer).2 hcost⟩

/-- Whatever was read is the written form of its value but for the length of numbers: the written form is
no longer, and is read as the same value. With bytes missing at the end there is nothing to be read, and
nothing may follow. No other value has the same written form. -/
theorem decoded_is_canonical {t : WireType} {bs : List UInt8} {x : t.Value} (h : t.codec.decodeWhole bs = .ok x) :
    t.codec.decodeWhole (t.codec.encode x) = .ok x ∧
      (t.codec.encode x).length ≤ bs.length ∧
      (Widened (t.codec.encode x) bs ∧ ((t.codec.encode x).length = bs.length → bs = t.codec.encode x)) ∧
      (∀ part, part <+: bs → part ≠ bs → t.codec.decodeWhole part = .error .unexpectedEnd) ∧
      (∀ more, more ≠ [] → t.codec.decodeWhole (bs ++ more) = .error .leftoverBytes) ∧
      ∀ y, t.codec.encode y = t.codec.encode x → y = x := by
  obtain ⟨k, hspell⟩ := t.lawful.respells h
  have hown : t.codec.decodeWhole (t.codec.encode x) = .ok x := decodeWhole_of_takes hspell.takesOwn
  refine ⟨hown, hspell.widened.length_le, ⟨hspell.widened, fun hlen => ?_⟩, ?_, ?_, ?_⟩
  · exact hspell.widened.eq_of_length_le (Nat.le_of_eq hlen.symm)
  · intro part hpart hne
    exact decodeWhole_cut hspell.takes hpart hne
  · intro more hmore
    exact decodeWhole_extended hspell.takes hmore
  · intro y heq
    exact t.lawful.eq_of_encode_eq hown heq

/-- A status with the phase in three bytes and the serial in nine. -/
def wideStatus : List UInt8 := .replicate 16 0 ++ [251, 0, 1, 0, 0, 253, 0, 0, 0, 0, 0, 0, 0, 7]

def narrowStatus : Status := ⟨.zero, .zero, .haveBlock, none, false, .ofNatClamped 7⟩

theorem decoded_is_canonical_wide :
    status.codec.decodeWhole wideStatus = .ok narrowStatus ∧
      status.codec.decodeWhole (status.codec.encode narrowStatus) = .ok narrowStatus ∧
      ((status.codec.encode narrowStatus).length = 20 ∧ wideStatus.length = 30) ∧
      (∀ part, part <+: wideStatus → part ≠ wideStatus → status.codec.decodeWhole part = .error .unexpectedEnd) ∧
      ∀ more, more ≠ [] → status.codec.decodeWhole (wideStatus ++ more) = .error .leftoverBytes := by
  have hread : status.codec.decodeWhole wideStatus = .ok narrowStatus := rfl
  obtain ⟨hown, _, _, hcut, hextended, _⟩ := decoded_is_canonical hread
  exact ⟨hread, hown, by decide +kernel, hcut, hextended⟩

end WireType

end QuorumChain
