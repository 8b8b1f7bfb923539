import QuorumChain.Block
import QuorumChain.Clock

/-!
What consensus needs of the machinery that checks, builds, stores and signs blocks.
-/

namespace QuorumChain

/-- A block that was not staged, with what was staged of it all the same. -/
structure Refusal (β ε : Type) where
  staged : Option β
  cause : ε

/-- An engine with states `σ`, staged blocks `β`, collectors of signatures `ω` and errors `ε`. A
staged block is to be committed or rolled back once. -/
class BlockEngine (σ : Type) (β ω ε : outParam Type) where
  /-- is shutting down -/
  isClosed : σ → Bool
  bestHeight : σ → Option Height
  blockAt? : σ → Height → Option WitnessedBlock
  /-- the own signature over a committed block -/
  signatureOver? : σ → BlockId → Option CommitSignature
  queueSize : σ → Nat
  /-- checks and stages a proposal -/
  load : Block → σ → Except (Refusal β ε) β × σ
  /-- makes and stages a block on top of the best one. What the block is to hold is taken before the
  clock is read, and is lost if that fails; a closed engine refuses before either. -/
  build : WallClock → σ → Except Fault (Except (Refusal β ε) β) × σ
  block : β → Block
  /-- a collector that holds the own signature -/
  collector : σ → β → ω
  commit : β → Witness → σ → Except ε Unit × σ
  rollback : β → σ → σ
  ownSignature : ω → CommitSignature
  /-- checks and keeps a signature -/
  applySignature : CommitSignature → ω → Except ε Unit × ω
  isComplete : ω → Bool
  witness : ω → Except ε Witness
  /-- an error and its causes, the outermost first -/
  causeChain : ε → List String

namespace BlockEngine

variable {σ β ω ε : Type} [BlockEngine σ β ω ε]

/-- Rolls back what was staged of a refused block. -/
def settle (r : Except (Refusal β ε) β × σ) : Except ε β × σ :=
  match r with
  | (.ok b, s) => (.ok b, s)
  | (.error ⟨some b, cause⟩, s) => (.error cause, rollback b s)
  | (.error ⟨none, cause⟩, s) => (.error cause, s)

end BlockEngine

end QuorumChain
