import QuorumChain.Clock
import QuorumChain.Intent
import QuorumChain.Status

/-!
What a validator does by time: ask again, tell its status again, and revolt.
-/

namespace QuorumChain

/-- Each next wait is longer by a tenth. -/
def backoff : Binary64 := .ofQuotient 11 10

/-- When the requests for an intent were last sent, and when they are sent again. -/
structure PendingIntent where
  intent : Intent
  timeout : Duration
  deadline : Instant

/-- Limits how often requests for the same intent are sent. -/
structure RequestTimer where
  baseTimeout : Duration
  pending : Option PendingIntent

namespace RequestTimer

def start (baseTimeout : Duration) : RequestTimer := ⟨baseTimeout, none⟩

/-- A new intent is acted on at once, the same one only after its deadline. -/
def shouldIssue (t : RequestTimer) (intent : Intent) (now : Instant) : Bool × RequestTimer :=
  let fresh : PendingIntent := ⟨intent, t.baseTimeout, now + t.baseTimeout⟩
  match t.pending with
  | some p =>
    if p.intent = intent then
      if now < p.deadline then (false, t)
      else
        let timeout := p.timeout.scale backoff
        (true, { t with pending := some ⟨intent, timeout, now + timeout⟩ })
    else (true, { t with pending := some fresh })
  | none => (true, { t with pending := some fresh })

end RequestTimer

/-- Starts a revolt when neither height nor round move. -/
structure RevoltTimer where
  baseTimeout : Duration
  height : Height
  round : Round
  deadline : Instant

namespace RevoltTimer

/-- Rounds after which the timeout does not grow any more. -/
def maxBackoffRounds : Nat := 50

/-- A slow primary gets more time in later rounds. -/
def timeoutFor (baseTimeout : Duration) (round : Round) : Duration :=
  baseTimeout.scale (backoff.power (min round.number maxBackoffRounds))

def start (baseTimeout : Duration) (own : Status) (now : Instant) : RevoltTimer :=
  ⟨baseTimeout, own.height, own.round, now + timeoutFor baseTimeout own.round⟩

/-- Should the validator revolt now? A new height or round sets a new deadline. -/
def update (t : RevoltTimer) (own : Status) (now : Instant) : Bool × RevoltTimer :=
  if own.height ≠ t.height ∨ own.round ≠ t.round then (false, start t.baseTimeout own now)
  else (!own.revolting && t.deadline < now, t)

end RevoltTimer

/-- Tells the own status when it changes, and from time to time even if it does not. -/
structure StatusAnnouncer where
  resendInterval : Duration
  lastSerial : Option Serial
  lastSent : Option Instant

namespace StatusAnnouncer

def start (resendInterval : Duration) : StatusAnnouncer := ⟨resendInterval, none, none⟩

/-- Is it time to tell the status again? -/
def isDue (a : StatusAnnouncer) (now : Instant) : Bool :=
  match a.lastSent with
  | some sent => a.resendInterval ≤ now.since sent
  | none => true

/-- The status to tell now, if any. -/
def update (a : StatusAnnouncer) (own : Status) (now : Instant) : Option Status × StatusAnnouncer :=
  if a.lastSerial ≠ some own.serial ∨ a.isDue now = true then
    (some own, { a with lastSerial := some own.serial, lastSent := some now })
  else (none, a)

end StatusAnnouncer

end QuorumChain
