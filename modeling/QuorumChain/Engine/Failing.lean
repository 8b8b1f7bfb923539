import QuorumChain.Engine

/-!
An engine that can be told to fail at staging blocks.
-/

namespace QuorumChain

/-- An engine with a switch for each way of staging a block. -/
structure FailingEngine (σ : Type) where
  engine : σ
  /-- builds a block, but then gives it back as refused -/
  failBuild : Bool
  /-- loads no block -/
  failLoad : Bool

inductive FailingError (ε : Type) where
  | own (e : ε)
  | buildFailed
  | loadFailed

namespace FailingEngine

variable {σ β ω ε : Type} [BlockEngine σ β ω ε]

def ofEngine (engine : σ) : FailingEngine σ := ⟨engine, false, false⟩

def map (f : σ → σ) (s : FailingEngine σ) : FailingEngine σ := { s with engine := f s.engine }

/-- The refusal of the engine itself. -/
def liftRefusal (r : Refusal β ε) : Refusal β (FailingError ε) := ⟨r.staged, .own r.cause⟩

def load (b : Block) (s : FailingEngine σ) :
    Except (Refusal β (FailingError ε)) β × FailingEngine σ :=
  if s.failLoad then (.error ⟨none, .loadFailed⟩, s)
  else
    let (r, engine) := BlockEngine.load b s.engine
    (r.mapError liftRefusal, { s with engine })

/-- What becomes of a block that the engine itself has built or refused. -/
def afterBuild (s : FailingEngine σ) :
    Except (Refusal β ε) β → Except (Refusal β (FailingError ε)) β
  | .error r => .error (liftRefusal r)
  | .ok b => if s.failBuild then .error ⟨some b, .buildFailed⟩ else .ok b

def build (clock : WallClock) (s : FailingEngine σ) :
    Except Fault (Except (Refusal β (FailingError ε)) β) × FailingEngine σ :=
  let (r, engine) := BlockEngine.build clock s.engine
  (r.map s.afterBuild, { s with engine })

instance : BlockEngine (FailingEngine σ) β ω (FailingError ε) where
  isClosed s := BlockEngine.isClosed s.engine
  bestHeight s := BlockEngine.bestHeight s.engine
  blockAt? s := BlockEngine.blockAt? s.engine
  signatureOver? s := BlockEngine.signatureOver? s.engine
  queueSize s := BlockEngine.queueSize s.engine
  load := load
  build := build
  block := BlockEngine.block σ
  collector s := BlockEngine.collector s.engine
  commit b w s :=
    let (r, engine) := BlockEngine.commit b w s.engine
    (r.mapError .own, { s with engine })
  rollback b s := s.map (BlockEngine.rollback b)
  ownSignature := BlockEngine.ownSignature σ
  applySignature s c :=
    let (r, c) := BlockEngine.applySignature σ s c
    (r.mapError .own, c)
  isComplete := BlockEngine.isComplete σ
  witness c := (BlockEngine.witness σ c).mapError .own
  causeChain
    | .own e => BlockEngine.causeChain σ e
    | .buildFailed => ["build failed"]
    | .loadFailed => ["load failed"]

end FailingEngine

end QuorumChain
