import QuorumChain.Network
import QuorumChain.Validator.Event

/-!
A single validator with the network around it. The validator takes the messages of the inboxes that
are connected; what it sends is only written down.
-/

namespace QuorumChain

structure Host (n : ValidatorCount) (σ β ω ε : Type) where
  validator : Validator n σ β ω ε
  network : Network
  now : Instant
  /-- what the validator has sent, in order -/
  sent : List Outbound

namespace Host

variable {n : ValidatorCount} {σ β ω ε : Type}

/-- A validator connected to its own inbox and to no other one. -/
def start (validator : Validator n σ β ω ε) (now : Instant) : Host n σ β ω ε :=
  let network := Network.start n.total
  ⟨validator, (network.connect validator.me).toOption.getD network, now, []⟩

/-- What was sent, which is then forgotten. -/
def takeSent (h : Host n σ β ω ε) : List Outbound × Host n σ β ω ε := (h.sent, { h with sent := [] })

variable [BlockEngine σ β ω ε] [CryptoSuite]

/-- Lets something happen to the validator. -/
def handle (e : ValidatorEvent) (h : Host n σ β ω ε) : Host n σ β ω ε :=
  let (sent, validator) := h.validator.handle e
  { h with validator, sent := h.sent ++ sent }

/-- Hands an event to the validator, with an error if that is stopped. -/
def tell (e : ValidatorEvent) (h : Host n σ β ω ε) : Except ValidatorError (Host n σ β ω ε) :=
  (h.validator.tell e).map fun (sent, validator) => { h with validator, sent := h.sent ++ sent }

/-- Asks the validator for its intent. -/
def askIntent (clock : WallClock) (h : Host n σ β ω ε) :
    Except ValidatorError Intent × Host n σ β ω ε :=
  let (intent, validator) := h.validator.askIntent clock
  (intent, { h with validator })

/-- Lets time pass, and the validator tick at the end of it. -/
def elapse (d : Duration) (clock : WallClock) (choice : Nat) (h : Host n σ β ω ε) :
    Host n σ β ω ε :=
  let now := h.now + d
  { h with now }.handle (.tick now clock choice)

/-- Hands over what is in an inbox. -/
def deliver (h : Host n σ β ω ε) (i : PeerIndex) : Host n σ β ω ε :=
  let (messages, network) := h.network.receive i
  messages.foldl (fun h (sender, m) => h.handle (.message sender m)) { h with network }

/-- Lets everything happen that does not need time. -/
def settle (clock : WallClock) (h : Host n σ β ω ε) : Host n σ β ω ε :=
  ((n.peers.foldl deliver h).handle (.workDone clock)).handle .resultTaken

end Host

end QuorumChain
