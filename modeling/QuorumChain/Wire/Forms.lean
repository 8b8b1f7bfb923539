import QuorumChain.Message
import QuorumChain.Peer.Set
import QuorumChain.Wire.Codec

/-!
The wire forms of blocks, statuses and messages.
-/

namespace QuorumChain

open Wire Codec

def BlockId.codec : Codec BlockId := (fixed 32).via .mk BlockId.raw

def PayloadHash.codec : Codec PayloadHash := (fixed 32).via .mk PayloadHash.raw

def PublicKey.codec : Codec PublicKey := (fixed 32).via .mk PublicKey.raw

def Signature.codec : Codec Signature := (fixed 64).via .mk Signature.raw

def PeerSet.codec : Codec PeerSet := (fixed 32).via .mk PeerSet.bits

def ValidatorCount.codec : Codec ValidatorCount :=
  byte.via (fun b => ⟨b.toNat, b.toNat_lt⟩) (fun n => UInt8.ofNat n.total)

def Transaction.codec : Codec Transaction := Codec.bytes.via .mk Transaction.bytes

def CommitSignature.codec : Codec CommitSignature :=
  (PublicKey.codec.pair Signature.codec).via
    (fun (signer, signature) => ⟨signer, signature⟩) (fun s => (s.signer, s.signature))

def Witness.codec : Codec Witness := (list 96 CommitSignature.codec).via .mk Witness.signatures

def Header.codec : Codec Header :=
  ((counterBytes .height).pair <| BlockId.codec.option.pair <| (counterBytes .timestamp).pair <|
      u32.pair PayloadHash.codec).via
    (fun (height, parent, timestamp, payloadLength, payloadHash) =>
      ⟨height, parent, timestamp, payloadLength, payloadHash⟩)
    (fun h => (h.height, h.parent, h.timestamp, h.payloadLength, h.payloadHash))

def Block.codec : Codec Block :=
  (Header.codec.pair (list 24 Transaction.codec)).via
    (fun (header, transactions) => ⟨header, transactions⟩) (fun b => (b.header, b.transactions))

def WitnessedBlock.codec : Codec WitnessedBlock :=
  (Block.codec.pair Witness.codec).via
    (fun (block, witness) => ⟨block, witness⟩) (fun b => (b.block, b.witness))

def Phase.codec : Codec Phase where
  encode p := tagBytes p.rank
  decode := do
    match ← takeTag with
    | 0 => return .waitBlock
    | 1 => return .haveBlock
    | 2 => return .prepared
    | tag => fail (.unexpectedVariant tag)
  cost _ := 4

def Status.codec : Codec Status :=
  ((counterBytes .height).pair <| (counterBytes .round).pair <| Phase.codec.pair <|
      BlockId.codec.option.pair <| bool.pair (counter .serial)).via
    (fun (height, round, phase, block, revolting, serial) =>
      ⟨height, round, phase, block, revolting, serial⟩)
    (fun s => (s.height, s.round, s.phase, s.block, s.revolting, s.serial))

/-- A height and the block that was asked for at it. -/
def completeBlockCodec : Codec (Height × WitnessedBlock) :=
  (counterBytes .height).pair WitnessedBlock.codec

def blockSignatureCodec : Codec (BlockId × CommitSignature) :=
  BlockId.codec.pair CommitSignature.codec

def Message.codec : Codec Message where
  encode
    | .status s => tagBytes 0 ++ Status.codec.encode s
    | .getUnfinishedBlock id => tagBytes 1 ++ BlockId.codec.encode id
    | .unfinishedBlock b => tagBytes 2 ++ Block.codec.encode b
    | .getBlockAtHeight h => tagBytes 3 ++ (counterBytes .height).encode h
    | .completeBlock h b => tagBytes 4 ++ completeBlockCodec.encode (h, b)
    | .getBlockSignature id => tagBytes 5 ++ BlockId.codec.encode id
    | .blockSignature id s => tagBytes 6 ++ blockSignatureCodec.encode (id, s)
  decode := do
    match ← takeTag with
    | 0 => return .status (← Status.codec.decode)
    | 1 => return .getUnfinishedBlock (← BlockId.codec.decode)
    | 2 => return .unfinishedBlock (← Block.codec.decode)
    | 3 => return .getBlockAtHeight (← (counterBytes .height).decode)
    | 4 =>
      let (h, b) ← completeBlockCodec.decode
      return .completeBlock h b
    | 5 => return .getBlockSignature (← BlockId.codec.decode)
    | 6 =>
      let (id, s) ← blockSignatureCodec.decode
      return .blockSignature id s
    | tag => fail (.unexpectedVariant tag)
  cost
    | .status s => 4 + Status.codec.cost s
    | .getUnfinishedBlock id => 4 + BlockId.codec.cost id
    | .unfinishedBlock b => 4 + Block.codec.cost b
    | .getBlockAtHeight h => 4 + (counterBytes .height).cost h
    | .completeBlock h b => 4 + completeBlockCodec.cost (h, b)
    | .getBlockSignature id => 4 + BlockId.codec.cost id
    | .blockSignature id s => 4 + blockSignatureCodec.cost (id, s)

end QuorumChain
