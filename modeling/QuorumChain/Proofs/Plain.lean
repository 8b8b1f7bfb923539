import Mathlib.Algebra.GroupWithZero.Nat
import QuorumChain.Proofs.Cluster.World

/-! Chains that can be evaluated: signatures show the key and hashes are remainders. -/

namespace QuorumChain

/-- Signatures are the key before the message, and a hash is what its input leaves over. -/
@[reducible] def plainSuite : CryptoSuite where
  hash input := ⟨bytesOfNat 32 (natOfBytes input % (2 ^ 256 - 189)), by simp⟩
  publicKey key := ⟨key.seed⟩
  sign key message := ⟨.ofPadded 64 (key.seed.bytes ++ message)⟩
  verify key message sig := sig = ⟨.ofPadded 64 (key.raw.bytes ++ message)⟩

theorem plain_sign_valid (id : BlockId) (key : SecretKey) :
    @CommitSignature.isValid plainSuite (@CommitSignature.sign plainSuite id key) id = true :=
  decide_eq_true rfl

/-- The key of a validator, made of its position. -/
def plainKey {n : ValidatorCount} (i : Fin n.total) : SecretKey := ⟨.fill 32 (.ofNat (i + 1))⟩

/-- What holds of a result can be found out by computing it. -/
theorem exists_ok {ε α : Type} {x : Except ε α} {P : α → Prop} [DecidablePred P]
    (h : (match x with
      | .ok a => decide (P a)
      | .error _ => false) = true) : ∃ a, x = .ok a ∧ P a := by
  split at h
  next a => exact ⟨a, rfl, of_decide_eq_true h⟩
  · cases h

/-- What holds of a validator once it has started can be found out by starting it. -/
theorem exists_started {α : Type} {x : Except Fault (Except ValidatorError α)} {P : α → Prop}
    [DecidablePred P]
    (h : (match x with
      | .ok (.ok v) => decide (P v)
      | _ => false) = true) : ∃ v, x = .ok (.ok v) ∧ P v := by
  split at h
  next v => exact ⟨v, rfl, of_decide_eq_true h⟩
  · cases h

def isStarted {α : Type} : Except Fault (Except ValidatorError α) → Bool
  | .ok (.ok _) => true
  | _ => false

/-- What was started. -/
def started {α : Type} : (x : Except Fault (Except ValidatorError α)) → isStarted x = true → α
  | .ok (.ok v), _ => v

theorem eq_started {α : Type} {x : Except Fault (Except ValidatorError α)} (h : isStarted x = true) :
    x = .ok (.ok (started x h)) := by
  match x, h with
  | .ok (.ok v), _ => rfl

variable [CryptoSuite]

abbrev plainRoster (n : ValidatorCount) : Roster := ⟨n, .ofFn fun i => (plainKey i).publicKey⟩

/-- The ledger of a validator, without blocks. -/
def plainLedger {n : ValidatorCount} (i : Fin n.total) : Ledger :=
  ⟨plainKey i, (plainRoster n).keys.toList, Ledger.defaultMaxTransactions, [], [], false⟩

/-- A validator that may build the first block. -/
def plainStart {n : ValidatorCount} (i : Fin n.total) :
    Except Fault (Except ValidatorError (Node n)) :=
  Validator.start {} (plainRoster n) (n.indexOf i) (plainLedger i)
    (.onDemand ⟨some .zero, none, false⟩) ⟨0⟩ .origin

def plainWorld (n : ValidatorCount) (h : ∀ i : Fin n.total, isStarted (plainStart i) = true) : World n :=
  ⟨.ofFn fun i => started (plainStart i) (h i), []⟩

theorem plainWorld_initial {n : ValidatorCount} (hdistinct : (plainRoster n).keys.toList.Nodup)
    (hsigns : ∀ (key : SecretKey) id, (CommitSignature.sign id key).isValid id = true)
    (h : ∀ i : Fin n.total, isStarted (plainStart i) = true) :
    World.Initial (plainRoster n) (plainWorld n h) where
  distinct := hdistinct
  started i := by
    have hkey : (plainKey (n := n) i).publicKey = (plainRoster n).keys[i] :=
      (Vector.getElem_ofFn (f := fun i => (plainKey (n := n) i).publicKey) i.isLt).symm
    have hnode : (plainWorld n h).nodes[i] = started (plainStart i) (h i) :=
      Vector.getElem_ofFn (f := fun i => started (plainStart i) (h i)) i.isLt
    refine ⟨{}, plainLedger i, .onDemand ⟨some .zero, none, false⟩, ⟨0⟩, .origin, rfl, rfl, hkey,
      hsigns (plainKey (n := n) i), ?_⟩
    rw [hnode]
    exact eq_started (h i)
  silent := rfl

/-- Four validators, of which one may be faulty. -/
abbrev quartet : ValidatorCount := ⟨4, by decide⟩

instance : NeZero quartet.total := ⟨by decide⟩

/-- Blocks of height 0 that differ in the timestamp. -/
def plainBlock (timestamp : Nat) : Block := .build .zero none (.ofNatClamped timestamp) []

/-- A message of a validator to another one. -/
def heard (i : Fin quartet.total) (m : Message) : Happening := .event (.message (quartet.indexOf i) m)

/-- Validator 0 has built a block, and validator 3 gets it. -/
def firstHeld : List Happening :=
  [heard 0 (.status ⟨.zero, .zero, .haveBlock, some (plainBlock 1).id, false, .ofNatClamped 1⟩),
    heard 0 (.unfinishedBlock (plainBlock 1)), .event (.workDone ⟨0⟩), .event .resultTaken]

/-- Validator 3 hears that validator 1 holds the block as well. -/
def firstPrepared : List Happening :=
  firstHeld ++
    [heard 1 (.status ⟨.zero, .zero, .haveBlock, some (plainBlock 1).id, false, .ofNatClamped 1⟩)]

end QuorumChain
