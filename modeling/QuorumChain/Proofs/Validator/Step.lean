import Mathlib.Logic.Relation
import QuorumChain.Proofs.Ledger.Staging
import QuorumChain.Proofs.View.Effect
import QuorumChain.Validator.Event

/-! The steps that an event of a validator is made of. Timers and the build policy decide only when a
step is made, so they are left out of the state. -/

namespace QuorumChain

/-- A validator on a ledger. -/
abbrev Node (n : ValidatorCount) := Validator n Ledger StagedBlock SignatureCollector LedgerError

/-- What a validator decides by. -/
structure Core (n : ValidatorCount) where
  keys : Vector PublicKey n.total
  view : View n
  database : Store
  processing : Bool
  current : Option Block
  work : Option (Work LedgerError)
  running : Bool

def Validator.core {n : ValidatorCount} (v : Node n) : Core n where
  keys := v.keys
  view := v.executor.view
  database := v.executor.database
  processing := v.executor.processing
  current := v.executor.current
  work := v.work
  running := v.running

namespace Core

variable {n : ValidatorCount} [CryptoSuite]

/-- The stored blocks, from height 0 on. -/
def blocks (c : Core n) : List WitnessedBlock := c.database.engine.blocks

/-- The view events that an event of the validator leads to without work being under way. -/
inductive Prompts : ValidatorEvent → ViewEvent → Prop
  | refresh {e : ValidatorEvent} : Prompts e .intentWanted
  | revolt {e : ValidatorEvent} : Prompts e .revolt
  | status {sender : PeerIndex} {s : Status} :
      Prompts (.message sender (.status s)) (.status sender s)

/-- The tasks that are issued at an event. -/
inductive Calls (c : Core n) : ValidatorEvent → Task → Prop
  | load {e : ValidatorEvent} {b : Block} (hintent : c.view.intent = .fetchUnfinishedBlock b.id) :
      Calls c e (.load b)
  | add {e : ValidatorEvent} {height : Height} {b : WitnessedBlock}
      (he : (∃ sender, e = .message sender (.completeBlock height b)) ∨ e = .committed height b)
      (hintent : c.view.intent = .fetchBlockAtHeight height) (hheight : b.block.height = height) :
      Calls c e (.add height b)
  | build {e : ValidatorEvent} (hintent : c.view.intent = .buildBlock) : Calls c e .build
  | commit {e : ValidatorEvent} {b : Block} (hintent : c.view.intent = .commitBlock)
      (hcurrent : c.current = some b) (hblock : c.view.own.block = some b.id) :
      Calls c e (.commit b c.view.recorded)

/-- What the result of a task makes of a view and of the block at hand. -/
inductive Takes (v : View n) (current : Option Block) :
    Completion LedgerError → View n → Option Block → Prop
  | failed {result : Completion LedgerError} (hresult : result.IsFailure) :
      Takes v current result v current
  | loaded {b : Block} {own : CommitSignature} {outcome : Outcome} {w : View n}
      (h : v.handle (.received b.id own) = .ok (outcome, w)) :
      Takes v current (.loaded b (.ok own)) w (if outcome = .accepted then some b else current)
  | built {b : Block} {own : CommitSignature} {outcome : Outcome} {w : View n}
      (h : v.handle (.built b.id own) = .ok (outcome, w)) :
      Takes v current (.built (.ok (b, own))) w (if outcome = .accepted then some b else current)
  | added {height next : Height} {outcome : Outcome} {w : View n}
      (hnext : next.number = height.number + 1)
      (h : v.handle (.advanced next) = .ok (outcome, w)) :
      Takes v current (.added height (.ok ())) w (if outcome = .accepted then none else current)
  | committed {b : Block} {outcome : Outcome} {w : View n}
      (h : v.handle (.committed b.id) = .ok (outcome, w)) :
      Takes v current (.committed b (.ok ())) w none

/-- A step of a running validator at an event. -/
inductive Step (e : ValidatorEvent) (c : Core n) : Core n → Prop
  | view {ve : ViewEvent} {outcome : Outcome} {view : View n} (hve : Prompts e ve)
      (h : c.view.handle ve = .ok (outcome, view)) : Step e c { c with view }
  | jump {best : Height} {outcome : Outcome} {view : View n} (hidle : c.processing = false)
      (hbest : c.database.engine.bestHeight = some best) (hge : c.view.own.height ≤ best)
      (h : c.view.handle (.fastForward best) = .ok (outcome, view)) : Step e c { c with view }
  | hear {sender : PeerIndex} {i : Fin n.total} {id : BlockId} {s : CommitSignature}
      {database : Store} {outcome : Outcome} {view : View n}
      (he : e = .message sender (.blockSignature id s) ∨ e = .signature sender id s)
      (hsender : n.memberAt? sender = some i) (hkey : c.keys[i] = s.signer)
      (hblock : c.view.own.block = some id)
      (hvalid : c.database.verifySignature s = (true, database))
      (h : c.view.handle (.signature sender id s) = .ok (outcome, view)) :
      Step e c { c with database, view }
  | issue {task : Task} (hidle : c.processing = false) (htask : Calls c e task) :
      Step e c { c with processing := true, work := some (.issued task) }
  | run {clock : WallClock} {task : Task} {result : Completion LedgerError} {database : Store}
      (he : e = .workDone clock ∨ e = .shutdown clock) (hwork : c.work = some (.issued task))
      (h : c.database.perform clock task = (result, database)) :
      Step e c { c with database, work := some (.done result) }
  | take {result : Completion LedgerError} {view : View n} {current : Option Block}
      (he : e = .resultTaken) (hwork : c.work = some (.done result))
      (h : Takes c.view c.current result view current) :
      Step e c { c with view, current, processing := false, work := none }

/-- Only stopping ends a validator's taking part. -/
theorem Step.running_eq {e : ValidatorEvent} {c c' : Core n} (h : Step e c c') :
    c'.running = c.running := by
  cases h <;> rfl

/-- A validator that takes no part any more. -/
def halt (c : Core n) : Core n :=
  { c with database := c.database.stop, work := none, running := false }

/-- Steps at one event. -/
abbrev Path (e : ValidatorEvent) : Core n → Core n → Prop := Relation.ReflTransGen (Step e)

end Core

end QuorumChain
