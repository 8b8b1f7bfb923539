import QuorumChain.Block
import QuorumChain.Config

/-!
When the primary builds a block. That it is its turn does not say that there is anything worth a
block yet.
-/

namespace QuorumChain

/-- Builds by the time since the last block and by the number of waiting transactions. -/
structure Pacing where
  config : PacingConfig
  lastBlock : Timestamp
  /-- when transactions were first seen to wait since the last block -/
  firstWaiting : Option Timestamp

namespace Pacing

/-- The pacing of a chain whose best block has a given timestamp. -/
def start (config : PacingConfig) (lastBlock : Option Timestamp) : Pacing :=
  ⟨config, lastBlock.getD .zero, none⟩

/-- Have transactions waited for too long? -/
def isOverdue (p : Pacing) (now : Timestamp) : Bool :=
  match p.firstWaiting with
  | some first => p.config.maxTxDelay < now.since first
  | none => false

/-- Is a block due, with so many transactions waiting? -/
def shouldBuild (p : Pacing) (now : Timestamp) (waiting : Nat) : Bool × Pacing :=
  let elapsed := now.since p.lastBlock
  if p.config.maxBlockTime < elapsed then (true, p)
  else if elapsed < p.config.minInterBlockInterval then (false, p)
  else if p.isOverdue now then (true, p)
  else if p.config.maxBlockTransactions.toNat ≤ waiting then (true, p)
  else if p.firstWaiting.isNone && 0 < waiting then (false, { p with firstWaiting := some now })
  else (false, p)

def committed (p : Pacing) (b : Block) : Pacing :=
  { p with lastBlock := b.header.timestamp, firstWaiting := none }

end Pacing

/-- Builds up to a height that is asked for from outside. -/
structure OnDemand where
  upTo : Option Height
  best : Option Height
  /-- nobody builds any more -/
  dropped : Bool

namespace OnDemand

/-- The policy of a chain with a given best height, with nothing asked for yet. -/
def start (best : Option Height) : OnDemand := ⟨none, best, false⟩

def shouldBuild (p : OnDemand) : Bool :=
  match p.upTo, p.best with
  | some upTo, some best => best < upTo
  | some _, none => true
  | none, _ => false

/-- Asks for blocks up to a height; what was asked for before stays. -/
def buildUpTo (p : OnDemand) (height : Height) : OnDemand :=
  { p with upTo := some (match p.upTo with
    | some upTo => max upTo height
    | none => height) }

def committed (p : OnDemand) (b : Block) : OnDemand :=
  if p.dropped then p else { p with best := some b.height }

/-- Has a block of a height been committed? Not decided while it may still come. -/
def reached? (p : OnDemand) (height : Height) : Option Bool :=
  match p.best with
  | some best => if height ≤ best then some true else if p.dropped then some false else none
  | none => if p.dropped then some false else none

end OnDemand

inductive BuildPolicy where
  | paced (p : Pacing)
  | onDemand (p : OnDemand)

namespace BuildPolicy

/-- Only a policy that goes by time reads the clock. -/
def shouldBuild (clock : WallClock) (waiting : Nat) : BuildPolicy → Except Fault (Bool × BuildPolicy)
  | paced p => do
    let (due, p) := p.shouldBuild (← clock.read) waiting
    return (due, paced p)
  | onDemand p => return (p.shouldBuild, onDemand p)

def committed (b : Block) : BuildPolicy → BuildPolicy
  | paced p => paced (p.committed b)
  | onDemand p => onDemand (p.committed b)

def buildUpTo (height : Height) : BuildPolicy → BuildPolicy
  | paced p => paced p
  | onDemand p => onDemand (p.buildUpTo height)

end BuildPolicy

end QuorumChain
