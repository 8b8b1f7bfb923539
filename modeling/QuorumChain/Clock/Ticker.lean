import QuorumChain.Clock

/-!
Ticks at a regular interval.
-/

namespace QuorumChain

/-- Ticks once in each period, next at a given moment. -/
structure Ticker where
  period : Duration
  next : Instant

namespace Ticker

/-- A ticker whose first tick is due at once. There is none without a period. -/
def start (period : Duration) (now : Instant) : Option Ticker :=
  if period.nanos = 0 then none else some ⟨period, now⟩

/-- How late a tick may come without putting off the ticks after it. -/
def tolerance : Duration := .ofMillis 5

/-- The number of ticks that are due. Ticks that nobody was there for are made up for only within
the tolerance. -/
def take (now : Instant) (t : Ticker) : Nat × Ticker :=
  if now < t.next then (0, t)
  else if t.next + tolerance < now then (1, { t with next := now + t.period })
  else
    let count := (now.since t.next).nanos / t.period.nanos + 1
    (count, { t with next := t.next + Duration.mk (count * t.period.nanos) })

end Ticker

end QuorumChain
