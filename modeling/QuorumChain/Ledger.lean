import QuorumChain.Block.Identity
import QuorumChain.Engine
import QuorumChain.Peer

/-!
The chain of one validator in memory, with a queue of transactions that wait for a block.

Every stored block extends the one before it, holds what its header says and has a witness of a
quorum. That is checked when a block is staged and again when it is committed, since other blocks may
be committed in between.
-/

namespace QuorumChain

/-- A validator's chain and queue. -/
structure Ledger where
  key : SecretKey
  peers : List PublicKey
  /-- the most transactions that a block may hold -/
  maxTransactions : Nat
  blocks : List WitnessedBlock
  queue : List Transaction
  closed : Bool

/-- Why a ledger refuses something. -/
inductive LedgerError where
  | closed
  | wrongHeight (expected got : Height)
  | wrongParent
  | inconsistentPayload
  | tooManyTransactions (length max : Nat)
  | unknownSigner (signer : PublicKey)
  | invalidSignature (signer : PublicKey)
  | witnessIncomplete (got required : Nat)
  | invalidWitness (e : WitnessError)
deriving DecidableEq

/-- A short name for each sort of error. -/
def LedgerError.kind : LedgerError → String
  | .closed => "Closed"
  | .wrongHeight _ _ => "WrongHeight"
  | .wrongParent => "WrongParent"
  | .inconsistentPayload => "InconsistentPayload"
  | .tooManyTransactions _ _ => "TooManyTransactions"
  | .unknownSigner _ => "UnknownSigner"
  | .invalidSignature _ => "InvalidSignature"
  | .witnessIncomplete _ _ => "WitnessIncomplete"
  | .invalidWitness _ => "InvalidWitness"

def LedgerError.message : LedgerError → String
  | .closed => "Engine is closed"
  | .wrongHeight expected got => s!"Expected block at height {expected}, got {got}"
  | .wrongParent => "Block does not extend the best block"
  | .inconsistentPayload => "Block payload does not match its header"
  | .tooManyTransactions length max => s!"Too many transactions: {length} > {max}"
  | .unknownSigner signer => s!"Unknown signer {signer}"
  | .invalidSignature signer => s!"Invalid signature by {signer}"
  | .witnessIncomplete got required => s!"Witness incomplete: {got} < {required}"
  | .invalidWitness e => e.message

/-- A staged block, and the own transactions that it took from the queue. -/
structure StagedBlock where
  block : Block
  requeue : List Transaction

/-- Collects signatures over a staged block. -/
structure SignatureCollector where
  id : BlockId
  own : CommitSignature
  signatures : List CommitSignature
  peers : List PublicKey
  threshold : Nat

namespace SignatureCollector

variable [CryptoSuite]

/-- Takes a valid signature of a validator, the first of each. -/
def apply (s : CommitSignature) (c : SignatureCollector) : Except LedgerError SignatureCollector :=
  if s.signer ∉ c.peers then .error (.unknownSigner s.signer)
  else if !s.isValid c.id then .error (.invalidSignature s.signer)
  else if c.signatures.any (·.signer = s.signer) then .ok c
  else .ok { c with signatures := c.signatures ++ [s] }

def isComplete (c : SignatureCollector) : Bool := c.threshold ≤ c.signatures.length

def witness (c : SignatureCollector) : Except LedgerError Witness :=
  if c.isComplete then .ok ⟨c.signatures⟩
  else .error (.witnessIncomplete c.signatures.length c.threshold)

end SignatureCollector

namespace Ledger

/-- How many transactions a block may hold if nothing else is asked for. -/
def defaultMaxTransactions : Nat := 100

/-- An empty ledger; there can be so many validators as there are positions. -/
def start (key : SecretKey) (peers : List PublicKey) (maxTransactions : Nat) : Except Fault Ledger := do
  let _ ← ValidatorCount.ofLength peers.length
  return ⟨key, peers, maxTransactions, [], [], false⟩

/-- How many validators have to sign a block. -/
def threshold (l : Ledger) : Nat := l.peers.length - (l.peers.length - 1) / 3

def close (l : Ledger) : Ledger := { l with closed := true }

def submit (tx : Transaction) (l : Ledger) : Ledger := { l with queue := l.queue ++ [tx] }

def nextHeight (l : Ledger) : Height := .ofNatClamped l.blocks.length

def bestHeight (l : Ledger) : Option Height := l.blocks.getLast?.map fun b => b.block.height

def blockAt? (l : Ledger) (height : Height) : Option WitnessedBlock := l.blocks[height.number]?

variable [CryptoSuite]

def bestId (l : Ledger) : Option BlockId := l.blocks.getLast?.map WitnessedBlock.id

/-- Would a block extend the chain now? -/
def checkExtends (l : Ledger) (b : Block) : Except LedgerError Unit :=
  if b.height ≠ l.nextHeight then .error (.wrongHeight l.nextHeight b.height)
  else if b.header.parent ≠ l.bestId then .error .wrongParent
  else .ok ()

/-- Is a block fit to be staged now? -/
def check (l : Ledger) (b : Block) : Except LedgerError Unit :=
  if l.closed then .error .closed
  else if !b.isConsistent then .error .inconsistentPayload
  else if l.maxTransactions < b.transactions.length then
    .error (.tooManyTransactions b.transactions.length l.maxTransactions)
  else l.checkExtends b

def load (b : Block) (l : Ledger) : Except (Refusal StagedBlock LedgerError) StagedBlock × Ledger :=
  match l.check b with
  | .ok () => (.ok ⟨b, []⟩, l)
  | .error e => (.error ⟨none, e⟩, l)

/-- Stages a block of the first transactions in the queue, made at the time of day. -/
def build (clock : WallClock) (l : Ledger) :
    Except Fault (Except (Refusal StagedBlock LedgerError) StagedBlock) × Ledger :=
  if l.closed then (.ok (.error ⟨none, .closed⟩), l)
  else
    let txs := l.queue.take l.maxTransactions
    let made := clock.read.map fun now => .ok ⟨.build l.nextHeight l.bestId now txs, txs⟩
    (made, { l with queue := l.queue.drop l.maxTransactions })

/-- Puts the own transactions of an abandoned block back in front. -/
def rollback (b : StagedBlock) (l : Ledger) : Ledger := { l with queue := b.requeue ++ l.queue }

/-- Is a staged block fit to be stored now? -/
def checkCommit (l : Ledger) (b : Block) (w : Witness) : Except LedgerError Unit := do
  (w.verify b.id l.peers l.threshold).mapError .invalidWitness
  l.checkExtends b

/-- Stores a block and drops what it holds from the queue. -/
def commit (b : StagedBlock) (w : Witness) (l : Ledger) : Except LedgerError Unit × Ledger :=
  match l.checkCommit b.block w with
  | .error e => (.error e, l.rollback b)
  | .ok () =>
    (.ok (), { l with
      queue := l.queue.filter (· ∉ b.block.transactions)
      blocks := l.blocks ++ [⟨b.block, w⟩] })

/-- Checks and stores a committed block of others. -/
def add (b : WitnessedBlock) (l : Ledger) : Except LedgerError Unit × Ledger :=
  match l.check b.block with
  | .error e => (.error e, l)
  | .ok () => l.commit ⟨b.block, []⟩ b.witness

def collector (l : Ledger) (b : StagedBlock) : SignatureCollector :=
  let own := CommitSignature.sign b.block.id l.key
  ⟨b.block.id, own, [own], l.peers, l.threshold⟩

def signatureOver? (l : Ledger) (id : BlockId) : Option CommitSignature :=
  if l.blocks.any (·.id = id) then some (.sign id l.key) else none

instance : BlockEngine Ledger StagedBlock SignatureCollector LedgerError where
  isClosed := Ledger.closed
  bestHeight := bestHeight
  blockAt? := blockAt?
  signatureOver? := signatureOver?
  queueSize l := l.queue.length
  load := load
  build := build
  block := StagedBlock.block
  collector := collector
  commit := commit
  rollback := rollback
  ownSignature := SignatureCollector.own
  applySignature s c :=
    match c.apply s with
    | .ok c => (.ok (), c)
    | .error e => (.error e, c)
  isComplete := SignatureCollector.isComplete
  witness := SignatureCollector.witness
  causeChain e := [e.message]

end Ledger

end QuorumChain
