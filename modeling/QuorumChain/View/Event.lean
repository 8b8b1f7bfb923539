import QuorumChain.View.Recompute

/-!
What can happen to a view. Events that come too late or contradict the view change nothing.
-/

namespace QuorumChain

/-- What became of an event. -/
inductive Outcome where
  | accepted
  /-- came too late to matter -/
  | stale
  /-- contradicts the own state -/
  | mismatch
  /-- refused -/
  | rejected
deriving DecidableEq

/-- A short name for each outcome. -/
def Outcome.text : Outcome → String
  | accepted => "Ok"
  | stale => "Stale"
  | mismatch => "Mismatch"
  | rejected => "Rejected"

/-- Something that happens to a view. -/
inductive ViewEvent where
  /-- a validator says what it is doing -/
  | status (peer : PeerIndex) (s : Status)
  /-- a block that was asked for is there, checked and signed -/
  | received (id : BlockId) (signature : CommitSignature)
  /-- the own height is one more -/
  | advanced (height : Height)
  /-- the held block is committed -/
  | committed (id : BlockId)
  /-- the block that the intent asked for is built -/
  | built (id : BlockId) (signature : CommitSignature)
  /-- a checked signature of a validator -/
  | signature (peer : PeerIndex) (id : BlockId) (signature : CommitSignature)
  /-- the round took too long -/
  | revolt
  /-- blocks up to a height are there without the view's doing -/
  | fastForward (committed : Height)
  /-- somebody wants to know the intent -/
  | intentWanted
deriving DecidableEq

namespace View

variable {n : ValidatorCount}

/-- Starts on the next height. -/
def advance (v : View n) : Change n (View n) := do
  let v ← v.nextHeight
  let v ← v.bump
  ((v.setOwn (.start v.own.height v.own.serial)).clearSignatures.withIntent .doNothing).recompute

/-- Starts on the next height several times. -/
def advanceBy : (count : Nat) → View n → Change n (View n)
  | 0, v => .ok v
  | k + 1, v => do advanceBy k (← v.advance)

/-- Holds a block that the validator has signed. -/
def hold (v : View n) (id : BlockId) (signature : CommitSignature) : Change n (View n) := do
  let v ← (v.clearSignatures.setOwn { v.own with block := some id }).bump
  let v := v.setOwn { v.own with phase := .haveBlock }
  ({ v with signatures := n.update v.signatures v.me (some signature) }.withIntent .doNothing).recompute

def onStatus (v : View n) (peer : PeerIndex) (s : Status) : Change n (Outcome × View n) :=
  match n.memberAt? peer with
  | none => .ok (.rejected, v)
  | some i =>
    if i = v.me then .ok (.rejected, v)
    else if !s.isNewerThan v.statuses[i] then .ok (.stale, v)
    else do return (.accepted, ← { v with statuses := n.update v.statuses i s }.recompute)

def onReceived (v : View n) (id : BlockId) (signature : CommitSignature) :
    Change n (Outcome × View n) :=
  match v.intent with
  | .fetchUnfinishedBlock wanted =>
    if wanted = id then do return (.accepted, ← v.hold id signature) else .ok (.mismatch, v)
  | _ => .ok (.stale, v)

def onAdvanced (v : View n) (height : Height) : Change n (Outcome × View n) :=
  if v.own.height.next = some height then do return (.accepted, ← v.advance) else .ok (.mismatch, v)

def onCommitted (v : View n) (id : BlockId) : Change n (Outcome × View n) :=
  if v.own.block = some id then do return (.accepted, ← v.advance) else .ok (.mismatch, v)

def onBuilt (v : View n) (id : BlockId) (signature : CommitSignature) :
    Change n (Outcome × View n) :=
  if v.intent ≠ .buildBlock then .ok (.stale, v)
  else if !v.isPrimary then .ok (.rejected, v.withIntent .doNothing)
  else do return (.accepted, ← v.hold id signature)

def onSignature (v : View n) (peer : PeerIndex) (id : BlockId) (signature : CommitSignature) :
    Change n (Outcome × View n) :=
  match n.memberAt? peer with
  | none => .ok (.rejected, v)
  | some i =>
    if v.own.phase ≠ .prepared ∨ v.own.block ≠ some id then .ok (.stale, v)
    else do
      return (.accepted, ← { v with signatures := n.update v.signatures i (some signature) }.recompute)

def onRevolt (v : View n) : Change n (Outcome × View n) := do
  let v ← (v.setOwn { v.own with revolting := true }).bump
  return (.accepted, ← v.recompute)

def onFastForward (v : View n) (committed : Height) : Change n (Outcome × View n) :=
  match committed.next with
  | none => .ok (.rejected, v)
  | some next =>
    if next < v.own.height then .ok (.mismatch, v)
    else do return (.accepted, ← v.advanceBy (next.number - v.own.height.number))

/-- The view after an event. -/
def handle (v : View n) : ViewEvent → Change n (Outcome × View n)
  | .status peer s => v.onStatus peer s
  | .received id signature => v.onReceived id signature
  | .advanced height => v.onAdvanced height
  | .committed id => v.onCommitted id
  | .built id signature => v.onBuilt id signature
  | .signature peer id signature => v.onSignature peer id signature
  | .revolt => v.onRevolt
  | .fastForward committed => v.onFastForward committed
  | .intentWanted => do return (.accepted, ← v.recompute)

end View

end QuorumChain
