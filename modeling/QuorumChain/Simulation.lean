import QuorumChain.Cluster
import QuorumChain.Json.Forms
import QuorumChain.Json.Indented

/-!
A cluster under load: made up transactions are submitted to all validators at a regular interval, and
whichever validator is the primary picks them up.
-/

namespace QuorumChain

/-- What to simulate. -/
structure SimulationOptions where
  validators : Nat := 4
  /-- ends the simulation when all validators that are online have committed a block of it -/
  targetHeight : Option Nat := none
  /-- a file with settings -/
  configPath : Option String := none
  tickMillis : Option Nat := none
  revoltTimeoutMillis : Option Nat := none
  /-- how often a transaction is submitted; never, if 0 -/
  transactionMillis : Nat := 200
  offline : List Nat := []
deriving DecidableEq

/-- Why there is nothing to simulate. -/
inductive SimulationError where
  | unknownOption (name : String)
  | missingValue (name : String)
  | badValue (name value : String)
  | badConfig
  | noValidators
  | noTickInterval
  | allOffline
  | validator (e : ValidatorError)
  | broken (f : Fault)

def SimulationError.message : SimulationError → String
  | unknownOption name => s!"Unknown option {name}"
  | missingValue name => s!"Option {name} needs a value"
  | badValue name value => s!"Invalid value {value} for option {name}"
  | badConfig => "Failed to parse config file"
  | noValidators => "At least one validator is required"
  | noTickInterval => "The tick interval must not be zero"
  | allOffline => "All validators are offline"
  | validator e => s!"Failed to create chain worker: {e.message}"
  | broken _ => "The simulation broke down"

namespace SimulationOptions

/-- The number that an option is given. -/
def number (name value : String) : Except SimulationError Nat :=
  match value.toNat? with
  | some v => .ok v
  | none => .error (.badValue name value)

/-- The options with one more of them given. -/
def set (o : SimulationOptions) (name value : String) : Except SimulationError SimulationOptions := do
  match name with
  | "--config" => return { o with configPath := some value }
  | "--validators" => return { o with validators := ← number name value }
  | "--target-height" => return { o with targetHeight := some (← number name value) }
  | "--tick-ms" => return { o with tickMillis := some (← number name value) }
  | "--revolt-timeout-ms" => return { o with revoltTimeoutMillis := some (← number name value) }
  | "--tx-interval-ms" => return { o with transactionMillis := ← number name value }
  | "--offline" => return { o with offline := o.offline ++ [← number name value] }
  | _ => throw (.unknownOption name)

/-- Reads options from a command line, each a name with its value after it. -/
def parse (o : SimulationOptions) : List String → Except SimulationError SimulationOptions
  | [] => .ok o
  | [name] => .error (.missingValue name)
  | name :: value :: rest => do parse (← o.set name value) rest

/-- The settings of the validators. What the options say goes before what a file says. -/
def config (o : SimulationOptions) (file : Option String) : Except SimulationError Config := do
  let config : Config ← match file with
    | none => pure {}
    | some text =>
      match Config.json.parse? text with
      | some c => pure c
      | none => throw .badConfig
  return { config with
    tickInterval := (o.tickMillis.map Duration.ofMillis).getD config.tickInterval
    revoltTimeout := (o.revoltTimeoutMillis.map Duration.ofMillis).getD config.revoltTimeout }

end SimulationOptions

/-- A cluster and the transactions that are made up for it. -/
structure Simulation (n : ValidatorCount) where
  cluster : Cluster n
  /-- when the next transactions are due -/
  ticker : Option Ticker
  /-- how many there were -/
  submitted : Nat

namespace Simulation

variable {n : ValidatorCount}

/-- Submits some transactions to all validators. -/
def submit (count : Nat) (s : Simulation n) : Simulation n :=
  let txs := (List.range count).map fun k => Transaction.mk (bytesOfNat 8 (s.submitted + k))
  let add (l : Ledger) : Ledger := txs.foldl (fun l tx => l.submit tx) l
  { s with
    cluster := s.cluster.mapValidators (Validator.mapEngine add)
    submitted := s.submitted + count }

/-- Submits the transactions that are due. -/
def submitDue (s : Simulation n) : Simulation n :=
  match s.ticker with
  | none => s
  | some t =>
    let (count, ticker) := t.take s.cluster.now
    { s with ticker := some ticker }.submit count

/-- Is everything done that was asked for? -/
def isDone (o : SimulationOptions) (s : Simulation n) : Bool :=
  match o.targetHeight with
  | some height => s.cluster.hasReached (.ofNatClamped height)
  | none => false

/-- What the validators are doing, as a JSON text. -/
def statusText (s : Simulation n) : String :=
  ((JsonForm.list Status.json).toJson s.cluster.statuses).renderIndented

variable [CryptoSuite]

/-- The simulation that options ask for, with keys for the validators. -/
def start (o : SimulationOptions) (config : Config) (keys : Vector SecretKey n.total)
    (clock : WallClock) : Except SimulationError (Simulation n) := do
  if n.total = 0 then throw .noValidators
  if config.tickInterval.nanos = 0 then throw .noTickInterval
  match Cluster.start config keys (.paced (.start {} none)) clock with
  | .error f => throw (.broken f)
  | .ok (.error e) => throw (.validator e)
  | .ok (.ok cluster) =>
    let cluster := (o.offline.filterMap PeerIndex.ofNat?).foldl (·.setOnline · false) cluster
    if n.peers.all fun i => !cluster.network.isOnline i then throw .allOffline
    return ⟨cluster, Ticker.start (.ofMillis o.transactionMillis) .origin, 0⟩

/-- Lets everything happen that can happen now, and then some time pass. -/
def step (d : Duration) (s : Simulation n) : Simulation n :=
  let s := s.submitDue
  let c := s.cluster.runInstant
  { s with cluster := { c.elapse d with clock := ⟨c.clock.micros + d.nanos / 1000⟩ } }

end Simulation

end QuorumChain
