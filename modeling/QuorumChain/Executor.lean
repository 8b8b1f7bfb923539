import QuorumChain.Block.Identity
import QuorumChain.BuildPolicy
import QuorumChain.Database
import QuorumChain.View.Event

/-!
Carries out what a view intends, on a database.

A task is handed to the database and its result comes back later, so there are three moments: a task
is issued, it is run, its result is taken. At most one task is under way, and what the view makes of
a result depends on the view at the last of the three.
-/

namespace QuorumChain

/-- Work for the database. -/
inductive Task where
  | load (b : Block)
  | add (height : Height) (b : WitnessedBlock)
  | build
  | commit (b : Block) (signatures : List CommitSignature)
deriving DecidableEq

/-- The result of a task. -/
inductive Completion (ε : Type) where
  | loaded (b : Block) (result : Except (DatabaseError ε) CommitSignature)
  | added (height : Height) (result : Except (DatabaseError ε) Unit)
  | built (result : Except (DatabaseError ε) (Block × CommitSignature))
  | committed (b : Block) (result : Except (DatabaseError ε) Unit)

/-- A view with the means to act on it. -/
structure Executor (n : ValidatorCount) (σ β ω : Type) where
  view : View n
  database : Database σ β ω
  policy : BuildPolicy
  /-- a task is under way -/
  processing : Bool
  /-- the block staged in the database, that of the own status -/
  current : Option Block

/-- A change without the view that a breakdown leaves. -/
def Change.toFault {n : ValidatorCount} {α : Type} (c : Change n α) : Except Fault α :=
  c.mapError Breakdown.fault

namespace Executor

variable {n : ValidatorCount} {σ β ω ε : Type} [BlockEngine σ β ω ε] [CryptoSuite]

def start (view : View n) (database : Database σ β ω) (policy : BuildPolicy) : Executor n σ β ω :=
  ⟨view, database, policy, false, none⟩

/-- Lets something happen to the view. -/
def handleView (x : Executor n σ β ω) (e : ViewEvent) : Except Fault (Outcome × Executor n σ β ω) := do
  let (outcome, view) ← (x.view.handle e).toFault
  return (outcome, { x with view })

/-- The intent of the view, derived anew. -/
def viewIntent (x : Executor n σ β ω) : Except Fault (Intent × Executor n σ β ω) := do
  let (_, x) ← x.handleView .intentWanted
  return (x.view.intent, x)

/-- Issues a task unless one is under way. -/
def issue (x : Executor n σ β ω) (task : Task) : Option Task × Executor n σ β ω :=
  if x.processing then (none, x) else (some task, { x with processing := true })

/-- The block to commit: the one at hand, if it is that of the own status. -/
def blockToCommit? (x : Executor n σ β ω) : Option Block :=
  match x.current with
  | some b => if x.view.own.block = some b.id then some b else none
  | none => none

/-- Acts on the intent of the view. -/
def update (clock : WallClock) (x : Executor n σ β ω) :
    Except Fault (Option Task × Executor n σ β ω) := do
  if x.processing then return (none, x)
  let (intent, x) ← x.viewIntent
  match intent with
  | .buildBlock =>
    let (due, policy) ← x.policy.shouldBuild clock (BlockEngine.queueSize x.database.engine)
    let x := { x with policy }
    if due then return x.issue .build else return (none, x)
  | .commitBlock =>
    match x.blockToCommit? with
    | some b => return x.issue (.commit b x.view.recorded)
    | none => return (none, x)
  | _ => return (none, x)

/-- Acts on the intent and says what is left of it for others: nothing while a task is under way. -/
def intentNow (clock : WallClock) (x : Executor n σ β ω) :
    Except Fault (Intent × Option Task × Executor n σ β ω) := do
  let (task, x) ← x.update clock
  if x.processing then return (.doNothing, task, x)
  let (intent, x) ← x.viewIntent
  return (intent, task, x)

/-- Takes a proposal if it is the one asked for. -/
def takeProposal (b : Block) (x : Executor n σ β ω) :
    Except Fault (Option Task × Executor n σ β ω) := do
  let (intent, x) ← x.viewIntent
  if intent = .fetchUnfinishedBlock b.id then return x.issue (.load b) else return (none, x)

/-- Takes a committed block if it is the one asked for. -/
def takeCommitted (height : Height) (b : WitnessedBlock) (x : Executor n σ β ω) :
    Except Fault (Option Task × Executor n σ β ω) := do
  let (intent, x) ← x.viewIntent
  if intent = .fetchBlockAtHeight height ∧ b.block.height = height then return x.issue (.add height b)
  else return (none, x)

/-- Runs a task on the database. -/
def run (clock : WallClock) (task : Task) (x : Executor n σ β ω) :
    Completion ε × Executor n σ β ω :=
  match task with
  | .load b =>
    let (r, database) := x.database.load b
    (.loaded b r, { x with database })
  | .add height b =>
    let (r, database) := x.database.add b
    (.added height r, { x with database })
  | .build =>
    let (r, database) := x.database.build clock
    (.built r, { x with database })
  | .commit b signatures =>
    let (r, database) := x.database.commit signatures
    (.committed b r, { x with database })

/-- Takes the result of a task. -/
def complete (c : Completion ε) (x : Executor n σ β ω) : Except Fault (Executor n σ β ω) := do
  let x := { x with processing := false }
  match c with
  | .loaded b (.ok own) =>
    let (outcome, x) ← x.handleView (.received b.id own)
    return if outcome = .accepted then { x with current := some b } else x
  | .added height (.ok ()) =>
    let next ← height.succ .heightOverflow
    let (outcome, x) ← x.handleView (.advanced next)
    return if outcome = .accepted then { x with current := none } else x
  | .built (.ok (b, own)) =>
    let (outcome, x) ← x.handleView (.built b.id own)
    return if outcome = .accepted then { x with current := some b } else x
  | .committed b (.ok ()) =>
    let (outcome, x) ← x.handleView (.committed b.id)
    let x := if outcome = .accepted then { x with policy := x.policy.committed b } else x
    return { x with current := none }
  | _ => return x

end Executor

end QuorumChain
