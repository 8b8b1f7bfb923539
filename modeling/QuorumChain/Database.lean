import QuorumChain.Engine
import QuorumChain.Text

/-!
One block at a time: operations on an engine, run one after the other.

At most one block is staged between two operations, together with the collector of its signatures.
Staging another one rolls it back first, and so does stopping. A database stops by itself if a build
breaks off for want of the time of day.
-/

namespace QuorumChain

/-- Why an operation failed. -/
inductive DatabaseError (ε : Type) where
  | stopped
  | engineClosed
  | loadFailed (cause : ε)
  | buildFailed (cause : ε)
  | commitFailed (cause : ε)
  | nothingStaged

/-- An engine, and the block staged on it with its collector of signatures. -/
structure Database (σ β ω : Type) where
  engine : σ
  staged : Option β
  collector : Option ω
  stopped : Bool

namespace DatabaseError

variable {ε : Type}

/-- A short name for each sort of error. -/
def kind : DatabaseError ε → String
  | stopped => "Stopped"
  | engineClosed => "EngineClosed"
  | loadFailed _ => "LoadFailed"
  | buildFailed _ => "BuildFailed"
  | commitFailed _ => "CommitFailed"
  | nothingStaged => "NothingStaged"

def message : DatabaseError ε → String
  | stopped => "Block database is stopped"
  | engineClosed => "Block engine is closed"
  | loadFailed _ => "Loading block failed"
  | buildFailed _ => "Building block failed"
  | commitFailed _ => "Committing block failed"
  | nothingStaged => "No block staged"

def cause? : DatabaseError ε → Option ε
  | loadFailed e | buildFailed e | commitFailed e => some e
  | _ => none

/-- Comes of shutting down and is no reason to worry. -/
def isShutdown : DatabaseError ε → Bool
  | stopped | engineClosed => true
  | _ => false

/-- The error and its causes on one line. -/
def text (σ : Type) {β ω : Type} [BlockEngine σ β ω ε] (e : DatabaseError ε) : String :=
  causeChainText (e.message :: match e.cause? with
    | some c => BlockEngine.causeChain σ c
    | none => [])

end DatabaseError

namespace Database

variable {σ β ω ε : Type} [BlockEngine σ β ω ε] {α : Type}

def start (engine : σ) : Database σ β ω := ⟨engine, none, none, false⟩

/-- The result of an operation and the database after it. -/
abbrev Answer (ε σ β ω α : Type) := Except (DatabaseError ε) α × Database σ β ω

def mapEngine (f : σ → σ) (d : Database σ β ω) : Database σ β ω := { d with engine := f d.engine }

/-- Runs an operation unless the database is stopped or its engine closed. -/
def ifOpen (d : Database σ β ω) (op : Answer ε σ β ω α) : Answer ε σ β ω α :=
  if d.stopped then (.error .stopped, d)
  else if BlockEngine.isClosed d.engine then (.error .engineClosed, d)
  else op

/-- Rolls back what an operation before has left staged. -/
def unstage (d : Database σ β ω) : Database σ β ω :=
  match d.staged with
  | some b => { d with engine := BlockEngine.rollback b d.engine, staged := none, collector := none }
  | none => { d with collector := none }

/-- Keeps a block staged with a fresh collector; the own signature over it is the answer. -/
def stage (b : β) (d : Database σ β ω) : CommitSignature × Database σ β ω :=
  let c := BlockEngine.collector d.engine b
  (BlockEngine.ownSignature σ c, { d with staged := some b, collector := some c })

/-- Checks and stages a proposal. -/
def load (b : Block) (d : Database σ β ω) : Answer ε σ β ω CommitSignature :=
  d.ifOpen <|
    let d := d.unstage
    match BlockEngine.settle (BlockEngine.load b d.engine) with
    | (.error e, engine) => (.error (.loadFailed e), { d with engine })
    | (.ok b, engine) =>
      let (own, d) := { d with engine }.stage b
      (.ok own, d)

/-- Builds and stages a block. A build that breaks off stops the database. -/
def build (clock : WallClock) (d : Database σ β ω) : Answer ε σ β ω (Block × CommitSignature) :=
  d.ifOpen <|
    let d := d.unstage
    match BlockEngine.build clock d.engine with
    | (.error _, engine) => (.error .stopped, { d with engine, stopped := true })
    | (.ok r, engine) =>
      match BlockEngine.settle (r, engine) with
      | (.error e, engine) => (.error (.buildFailed e), { d with engine })
      | (.ok b, engine) =>
        let (own, d) := { d with engine }.stage b
        (.ok (BlockEngine.block σ b, own), d)

/-- Keeps the signatures that are valid. -/
def applyAll (c : ω) (signatures : List CommitSignature) : ω :=
  signatures.foldl (fun c s => (BlockEngine.applySignature σ s c).2) c

/-- Commits the staged block with the signatures collected and given. -/
def commit (signatures : List CommitSignature) (d : Database σ β ω) : Answer ε σ β ω Unit :=
  d.ifOpen <|
    match d.staged, d.collector with
    | none, _ => (.error .nothingStaged, d)
    | some _, none => (.error .nothingStaged, d.unstage)
    | some b, some c =>
      match BlockEngine.witness σ (applyAll (σ := σ) c signatures) with
      | .error e => (.error (.commitFailed e), d.unstage)
      | .ok w =>
        let (r, engine) := BlockEngine.commit b w d.engine
        (r.mapError .commitFailed, { d with engine, staged := none, collector := none })

/-- Stages a committed block of others and commits it with its witness. -/
def add (b : WitnessedBlock) (d : Database σ β ω) : Answer ε σ β ω Unit :=
  d.ifOpen <|
    let d := d.unstage
    match BlockEngine.settle (BlockEngine.load b.block d.engine) with
    | (.error e, engine) => (.error (.loadFailed e), { d with engine })
    | (.ok staged, engine) =>
      let (r, engine) := BlockEngine.commit staged b.witness engine
      (r.mapError .commitFailed, { d with engine })

/-- Checks a signature over the staged block, and keeps it if it is valid. -/
def verifySignature (s : CommitSignature) (d : Database σ β ω) : Bool × Database σ β ω :=
  match d.collector with
  | none => (false, d)
  | some c =>
    let (r, c) := BlockEngine.applySignature σ s c
    (r.toBool, { d with collector := some c })

/-- Takes no more operations and leaves nothing staged. -/
def stop (d : Database σ β ω) : Database σ β ω :=
  if d.stopped then d else { d.unstage with stopped := true }

def bestHeight (d : Database σ β ω) : Option Height := BlockEngine.bestHeight d.engine

end Database

end QuorumChain
