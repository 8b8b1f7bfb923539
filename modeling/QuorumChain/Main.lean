import QuorumChain.Crypto.Standard
import QuorumChain.Simulation
import Std.Time.DateTime.Timestamp

/-!
The command line: simulates a cluster in real time and prints what its validators end with.
-/

namespace QuorumChain

/-- How often the simulation looks at the clock. -/
def pauseMillis : Nat := 10

/-- Runs a simulation until it is done. -/
partial def Simulation.run {n : ValidatorCount} [CryptoSuite] (o : SimulationOptions)
    (s : Simulation n) : IO (Simulation n) := do
  let s := s.step (.ofMillis pauseMillis)
  if s.isDone o then return s
  IO.sleep pauseMillis.toUInt32
  s.run o

/-- A key made of random bytes. -/
def SecretKey.random : IO SecretKey := do
  return ⟨.ofPadded 32 (← IO.getRandomBytes 32).toList⟩

/-- Reads the settings, makes the keys and runs the simulation. -/
def simulate (o : SimulationOptions) : IO (Except SimulationError String) := do
  let file ← o.configPath.mapM fun path => IO.FS.readFile path
  match o.config file, ValidatorCount.ofNat? o.validators with
  | .error e, _ => return .error e
  | _, none => return .error (.validator (.tooManyPeers o.validators))
  | .ok config, some n =>
    let keys ← Vector.ofFnM fun (_ : Fin n.total) => SecretKey.random
    let clock : WallClock := ⟨(← Std.Time.Timestamp.now).toNanosecondsSinceUnixEpoch.val / 1000⟩
    let _ : CryptoSuite := standardSuite
    match Simulation.start o config keys clock with
    | .error e => return .error e
    | .ok s => return .ok (← s.run o).statusText

end QuorumChain

open QuorumChain in
/-- The program. -/
def main (args : List String) : IO UInt32 := do
  let result ← match SimulationOptions.parse {} args with
    | .error e => pure (.error e)
    | .ok o => simulate o
  match result with
  | .ok text =>
    IO.println text
    return 0
  | .error e =>
    IO.eprintln e.message
    return 1
