import QuorumChain.Executor
import QuorumChain.Validator.Requests
import QuorumChain.Validator.Timers

/-!
A validator: an executor with the keys of all validators and with the timers that drive it.

Work for the database is done apart from the rest, so between being issued and being taken it stands
in the validator, first as a task and then as a result.
-/

namespace QuorumChain

/-- Work for the database under way. -/
inductive Work (ε : Type) where
  | issued (task : Task)
  | done (result : Completion ε)

/-- The keys of the validators of a chain, by position. -/
structure Roster where
  size : ValidatorCount
  keys : Vector PublicKey size.total

/-- One of `n` validators. -/
structure Validator (n : ValidatorCount) (σ β ω ε : Type) where
  /-- of all validators, by position -/
  keys : Vector PublicKey n.total
  executor : Executor n σ β ω
  work : Option (Work ε)
  requestTimer : RequestTimer
  revoltTimer : RevoltTimer
  announcer : StatusAnnouncer
  /-- takes part in the chain -/
  running : Bool

/-- A message to send. -/
inductive Outbound where
  | one (peer : PeerIndex) (m : Message)
  /-- to every other validator -/
  | all (m : Message)
deriving DecidableEq

/-- Why there is no validator to start or to talk to. -/
inductive ValidatorError where
  | start (e : StartError)
  | tooManyPeers (count : Nat)
  | gone
deriving DecidableEq

def ValidatorError.message : ValidatorError → String
  | start e => e.message
  | tooManyPeers count => s!"Too many validators: {count}"
  | gone => "Chain worker is gone"

/-- Keys in order, if there are not too many. -/
def Roster.ofList (keys : List PublicKey) : Except ValidatorError Roster :=
  if h : keys.length < 256 then .ok ⟨⟨keys.length, h⟩, ⟨keys.toArray, by simp⟩⟩
  else .error (.tooManyPeers keys.length)

namespace Validator

variable {n : ValidatorCount} {σ β ω ε : Type}

def own (v : Validator n σ β ω ε) : Status := v.executor.view.own

def me (v : Validator n σ β ω ε) : PeerIndex := v.executor.view.myIndex

def engine (v : Validator n σ β ω ε) : σ := v.executor.database.engine

/-- Changes the engine behind the validator's back. -/
def mapEngine (f : σ → σ) (v : Validator n σ β ω ε) : Validator n σ β ω ε :=
  { v with executor := { v.executor with database := v.executor.database.mapEngine f } }

/-- Asks for blocks up to a height. -/
def buildUpTo (height : Height) (v : Validator n σ β ω ε) : Validator n σ β ω ε :=
  { v with executor := { v.executor with policy := v.executor.policy.buildUpTo height } }

/-- Keeps a task that was issued, if any. -/
def issue (task : Option Task) (executor : Executor n σ β ω) (v : Validator n σ β ω ε) :
    Validator n σ β ω ε :=
  match task with
  | some t => { v with executor, work := some (.issued t) }
  | none => { v with executor }

variable [BlockEngine σ β ω ε] [CryptoSuite]

/-- A validator on top of what its engine has stored. Its first serial is of the time of day. -/
def start (config : Config) (roster : Roster) (me : PeerIndex) (engine : σ) (policy : BuildPolicy)
    (clock : WallClock) (now : Instant) :
    Except Fault (Except ValidatorError (Validator roster.size σ β ω ε)) := do
  let next ← match BlockEngine.bestHeight engine with
    | some best => best.succ .heightOverflow
    | none => pure .zero
  let serial := (← clock.read).startSerial
  match View.start roster.size me next config.recomputeMaxIterations.toNat serial with
  | .error e => return .error (.start e)
  | .ok view => return .ok {
      keys := roster.keys
      executor := .start view (.start engine) policy
      work := none
      requestTimer := .start config.intentRetryTimeout
      revoltTimer := .start config.revoltTimeout view.own now
      announcer := .start config.statusResendInterval
      running := true }

/-- Lets something happen to the view. -/
def handleView (e : ViewEvent) (v : Validator n σ β ω ε) : Except Fault (Validator n σ β ω ε) := do
  let (_, executor) ← v.executor.handleView e
  return { v with executor }

/-- The own signature over a block, held or committed. -/
def signatureOver? (v : Validator n σ β ω ε) (id : BlockId) : Option CommitSignature :=
  if v.own.block = some id then v.executor.view.mySignature <|> BlockEngine.signatureOver? v.engine id
  else BlockEngine.signatureOver? v.engine id

/-- The answer to a request of a peer. -/
def answer? (v : Validator n σ β ω ε) : Message → Option Message
  | .getUnfinishedBlock id => (v.executor.current.filter (·.id = id)).map .unfinishedBlock
  | .getBlockAtHeight height => (BlockEngine.blockAt? v.engine height).map (.completeBlock height)
  | .getBlockSignature id => (v.signatureOver? id).map (.blockSignature id)
  | .status _ | .unfinishedBlock _ | .completeBlock _ _ | .blockSignature _ _ => none

def takeProposal (b : Block) (v : Validator n σ β ω ε) : Except Fault (Validator n σ β ω ε) := do
  let (task, executor) ← v.executor.takeProposal b
  return v.issue task executor

def takeCommitted (height : Height) (b : WitnessedBlock) (v : Validator n σ β ω ε) :
    Except Fault (Validator n σ β ω ε) := do
  let (task, executor) ← v.executor.takeCommitted height b
  return v.issue task executor

/-- Is a signature by the sender's key, over the block in the own status? -/
def expects (v : Validator n σ β ω ε) (sender : PeerIndex) (id : BlockId) (s : CommitSignature) : Bool :=
  match n.memberAt? sender with
  | some i => v.keys[i] = s.signer && v.own.block = some id
  | none => false

/-- Records a signature if it is valid. -/
def takeSignature (sender : PeerIndex) (id : BlockId) (s : CommitSignature)
    (v : Validator n σ β ω ε) : Except Fault (Validator n σ β ω ε) :=
  if v.expects sender id s then
    let (valid, database) := v.executor.database.verifySignature s
    let v := { v with executor := { v.executor with database } }
    if valid then v.handleView (.signature sender id s) else .ok v
  else .ok v

/-- What a validator makes of a peer's message, apart from answering it. -/
def learn (sender : PeerIndex) (v : Validator n σ β ω ε) :
    Message → Except Fault (Validator n σ β ω ε)
  | .status s => v.handleView (.status sender s)
  | .unfinishedBlock b => v.takeProposal b
  | .completeBlock height b => v.takeCommitted height b
  | .blockSignature id s => v.takeSignature sender id s
  | .getUnfinishedBlock _ | .getBlockAtHeight _ | .getBlockSignature _ => .ok v

/-- Takes a peer's message; a message of no peer is ignored. -/
def receive (sender : PeerIndex) (m : Message) (v : Validator n σ β ω ε) :
    Except Fault (List Outbound × Validator n σ β ω ε) := do
  if sender = v.me ∨ !n.contains sender then return ([], v)
  else return ((v.answer? m).toList.map (.one sender), ← v.learn sender m)

/-- Notices blocks that the engine has stored meanwhile. -/
def fastForward (v : Validator n σ β ω ε) : Except Fault (Validator n σ β ω ε) :=
  if v.executor.processing then .ok v
  else
    match v.executor.database.bestHeight with
    | some best => if best < v.own.height then .ok v else v.handleView (.fastForward best)
    | none => .ok v

/-- Acts on the intent and says what is left of it for others. -/
def intentNow (clock : WallClock) (v : Validator n σ β ω ε) :
    Except Fault (Intent × Validator n σ β ω ε) := do
  let (intent, task, executor) ← v.executor.intentNow clock
  return (intent, v.issue task executor)

/-- Sends the requests that an intent needs, if it is time to. -/
def request (intent : Intent) (now : Instant) (choice : Nat) (v : Validator n σ β ω ε) :
    List Outbound × Validator n σ β ω ε :=
  let (due, requestTimer) := v.requestTimer.shouldIssue intent now
  let requests := intent.requests v.executor.view.statuses.toList v.me choice
  (if due then requests.map fun (i, m) => .one i m else [], { v with requestTimer })

/-- Revolts if the round has taken too long. -/
def revoltIfDue (now : Instant) (v : Validator n σ β ω ε) : Except Fault (Validator n σ β ω ε) :=
  let (due, revoltTimer) := v.revoltTimer.update v.own now
  let v := { v with revoltTimer }
  if due then v.handleView .revolt else .ok v

/-- Tells everybody the own status, if it is time to. -/
def announce (now : Instant) (v : Validator n σ β ω ε) : List Outbound × Validator n σ β ω ε :=
  let (told, announcer) := v.announcer.update v.own now
  (told.toList.map fun s => .all (.status s), { v with announcer })

/-- Does what there is to do from time to time. Where a request can go to several peers, `choice`
picks one. -/
def tick (now : Instant) (clock : WallClock) (choice : Nat) (v : Validator n σ β ω ε) :
    Except Fault (List Outbound × Validator n σ β ω ε) := do
  let v ← v.fastForward
  let (intent, v) ← v.intentNow clock
  let (requests, v) := v.request intent now choice
  let v ← v.revoltIfDue now
  let (told, v) := v.announce now
  return (requests ++ told, v)

/-- Does the work that was issued. -/
def runWork (clock : WallClock) (v : Validator n σ β ω ε) : Validator n σ β ω ε :=
  match v.work with
  | some (.issued task) =>
    let (result, executor) := v.executor.run clock task
    { v with executor, work := some (.done result) }
  | _ => v

/-- Takes the result of work that was done. -/
def takeResult (v : Validator n σ β ω ε) : Except Fault (Validator n σ β ω ε) :=
  match v.work with
  | some (.done result) => do
    return { v with executor := ← v.executor.complete result, work := none }
  | _ => .ok v

/-- Takes no part any more. The database stops with the validator, so nothing is left staged, and
nobody takes the result of work. -/
def halt (v : Validator n σ β ω ε) : Validator n σ β ω ε :=
  { v with
    executor := { v.executor with database := v.executor.database.stop }
    work := none
    running := false }

/-- Stops for good, after the work that was issued is done. -/
def shutdown (clock : WallClock) (v : Validator n σ β ω ε) : Validator n σ β ω ε :=
  (v.runWork clock).halt

end Validator

end QuorumChain
