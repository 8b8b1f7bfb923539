import QuorumChain.Clock.Ticker
import QuorumChain.Ledger
import QuorumChain.Network
import QuorumChain.Validator.Event

/-!
All validators of a chain on one network, with a common clock that moves in steps.

At each moment everything happens that can happen: validators tick, work gets done, and messages are
delivered until none is left.
-/

namespace QuorumChain

/-- A validator with the ticker that drives it. -/
structure Member (n : ValidatorCount) where
  validator : Validator n Ledger StagedBlock SignatureCollector LedgerError
  /-- without one the validator never does anything -/
  ticker : Option Ticker

structure Cluster (n : ValidatorCount) where
  members : Vector (Member n) n.total
  network : Network
  now : Instant
  /-- the time of day, which stands still -/
  clock : WallClock
  /-- grows with every tick; picks peers where a request can go to several -/
  choice : Nat

namespace Cluster

variable {n : ValidatorCount}

def elapse (d : Duration) (c : Cluster n) : Cluster n := { c with now := c.now + d }

def setOnline (i : PeerIndex) (online : Bool) (c : Cluster n) : Cluster n :=
  { c with network := c.network.setOnline i online }

/-- Changes every validator. -/
def mapValidators (f : Validator n Ledger StagedBlock SignatureCollector LedgerError →
      Validator n Ledger StagedBlock SignatureCollector LedgerError) (c : Cluster n) : Cluster n :=
  { c with members := c.members.map fun m => { m with validator := f m.validator } }

/-- Asks all validators that build on demand for blocks up to a height. -/
def buildUpTo (height : Height) (c : Cluster n) : Cluster n :=
  c.mapValidators (Validator.buildUpTo height)

/-- Gives a transaction to one validator. -/
def submit (i : Fin n.total) (tx : Transaction) (c : Cluster n) : Cluster n :=
  let m := c.members[i]
  { c with members := n.update c.members i { m with validator := m.validator.mapEngine (Ledger.submit tx) } }

/-- What the validators are doing, by position. -/
def statuses (c : Cluster n) : List Status := c.members.toList.map fun m => m.validator.own

/-- What the validators have stored, by position. -/
def ledgers (c : Cluster n) : List Ledger := c.members.toList.map fun m => m.validator.engine

/-- Have all validators that are online committed the block of a height? -/
def hasReached (height : Height) (c : Cluster n) : Bool :=
  (List.finRange n.total).all fun i =>
    !c.network.isOnline (n.indexOf i) || height < c.members[i].validator.own.height

/-- Puts a message on the network; what cannot be sent is lost. -/
def post (sender : PeerIndex) (net : Network) : Outbound → Network
  | .one i m => (net.send sender i m).toOption.getD net
  | .all m => (net.broadcast sender m).toOption.getD net

/-- Does something with each validator in turn. -/
def each (f : Fin n.total → Cluster n → Cluster n) (c : Cluster n) : Cluster n :=
  (List.finRange n.total).foldl (fun c i => f i c) c

variable [CryptoSuite]

/-- Validators with given keys and the same settings, all of them online. -/
def start (config : Config) (keys : Vector SecretKey n.total) (policy : BuildPolicy)
    (clock : WallClock) : Except Fault (Except ValidatorError (Cluster n)) :=
  ExceptT.run do
    let roster : Roster := ⟨n, keys.map SecretKey.publicKey⟩
    let members ← Vector.ofFnM fun i => do
      let ledger : Ledger ←
        liftM (Ledger.start keys[i] roster.keys.toList Ledger.defaultMaxTransactions)
      let validator ← ExceptT.mk
        (Validator.start config roster (n.indexOf i) ledger policy clock .origin)
      return (⟨validator, Ticker.start config.tickInterval .origin⟩ : Member n)
    return ⟨members, .startConnected n.total, .origin, clock, 0⟩

/-- Lets something happen to one validator, and sends what it has to say. -/
def act (i : Fin n.total) (e : ValidatorEvent) (c : Cluster n) : Cluster n :=
  let m := c.members[i]
  let (sent, validator) := m.validator.handle e
  { c with
    members := n.update c.members i { m with validator }
    network := sent.foldl (post (n.indexOf i)) c.network }

/-- Lets a validator tick several times. -/
def tickTimes (i : Fin n.total) : (count : Nat) → Cluster n → Cluster n
  | 0, c => c
  | k + 1, c =>
    let c := c.act i (.tick c.now c.clock c.choice)
    tickTimes i k { c with choice := c.choice + 1 }

/-- Lets a validator tick if it is time to. -/
def tick (i : Fin n.total) (c : Cluster n) : Cluster n :=
  let m := c.members[i]
  match m.ticker with
  | none => c
  | some t =>
    let (count, ticker) := t.take c.now
    tickTimes i count { c with members := n.update c.members i { m with ticker := some ticker } }

/-- Ends the work that a validator has under way. -/
def settle (i : Fin n.total) (c : Cluster n) : Cluster n :=
  (c.act i (.workDone c.clock)).act i .resultTaken

/-- Delivers what is in the inbox of a validator. -/
def deliver (i : Fin n.total) (c : Cluster n) : Cluster n :=
  let (messages, network) := c.network.receive (n.indexOf i)
  messages.foldl (fun c (sender, m) => c.act i (.message sender m)) { c with network }

/-- Delivers what is in the inboxes, several times over. -/
def exchange : (rounds : Nat) → Cluster n → Cluster n
  | 0, c => c
  | k + 1, c => exchange k ((c.each deliver).each settle)

/-- A message is answered at most once, and an answer not at all. -/
def roundsPerInstant : Nat := 3

/-- Lets everything happen that can happen now. -/
def runInstant (c : Cluster n) : Cluster n :=
  exchange roundsPerInstant ((c.each tick).each settle)

/-- Lets time pass until a height is reached, in at most so many steps. Each step starts with what
happens at its moment; what happens after the last step is too late. -/
def awaitHeight (height : Height) (step : Duration) :
    (limit : Nat) → Cluster n → Bool × Cluster n
  | 0, c => (false, c.runInstant)
  | k + 1, c =>
    let c := c.runInstant
    if c.hasReached height then (true, c) else awaitHeight height step k (c.elapse step)

end Cluster

end QuorumChain
