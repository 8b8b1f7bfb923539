import QuorumChain.Clock.Binary64
import QuorumChain.Counter

/-!
Spans of time, moments of a clock that only runs forward, and the time of day.
-/

namespace QuorumChain

/-- A span of time. -/
@[ext] structure Duration where
  nanos : Nat
deriving DecidableEq

namespace Duration

def ofMicros (v : Nat) : Duration := ⟨v * 1000⟩

def ofMillis (v : Nat) : Duration := ⟨v * 1000000⟩

/-- Whole milliseconds. -/
def toMillis (d : Duration) : Nat := d.nanos / 1000000

instance : LT Duration := ⟨fun a b => a.nanos < b.nanos⟩
instance : LE Duration := ⟨fun a b => a.nanos ≤ b.nanos⟩
instance (a b : Duration) : Decidable (a < b) := inferInstanceAs (Decidable (a.nanos < b.nanos))
instance (a b : Duration) : Decidable (a ≤ b) := inferInstanceAs (Decidable (a.nanos ≤ b.nanos))

/-- The span in seconds: whole seconds and the rest are rounded apart, and so is their sum. -/
def toSeconds (d : Duration) : Binary64 :=
  (Binary64.ofNat (d.nanos / 1000000000)).add (.ofQuotient (d.nanos % 1000000000) 1000000000)

/-- A multiple of a span, computed in seconds and rounded to a nanosecond. -/
def scale (d : Duration) (factor : Binary64) : Duration :=
  ⟨(factor.mul d.toSeconds).timesNat 1000000000⟩

end Duration

/-- A moment of a clock that only runs forward. -/
@[ext] structure Instant where
  nanos : Nat
deriving DecidableEq

namespace Instant

/-- The moment at which the clock starts. -/
def origin : Instant := ⟨0⟩

instance : LT Instant := ⟨fun a b => a.nanos < b.nanos⟩
instance : LE Instant := ⟨fun a b => a.nanos ≤ b.nanos⟩
instance (a b : Instant) : Decidable (a < b) := inferInstanceAs (Decidable (a.nanos < b.nanos))
instance (a b : Instant) : Decidable (a ≤ b) := inferInstanceAs (Decidable (a.nanos ≤ b.nanos))

instance : HAdd Instant Duration Instant := ⟨fun t d => ⟨t.nanos + d.nanos⟩⟩

/-- The span since an earlier moment, none since a later one. -/
def since (t earlier : Instant) : Duration := ⟨t.nanos - earlier.nanos⟩

end Instant

/-- The time of day as a clock shows it, in microseconds since 1970, UTC. -/
structure WallClock where
  micros : Int
deriving DecidableEq

namespace WallClock

/-- The first microsecond of the calendar, in the year -9999. -/
def earliest : Int := -377705116800000000

/-- The last microsecond of the calendar, in the year 9999. -/
def latest : Int := 253402300799999999

/-- A reading of the clock. Times before 1970 read as zero. -/
def read (clock : WallClock) : Except Fault Timestamp :=
  if clock.micros < earliest ∨ latest < clock.micros then .error .clockOutOfRange
  else .ok (.ofNatClamped clock.micros.toNat)

/-- The clock shows a time of the calendar. -/
def IsReadable (clock : WallClock) : Prop := earliest ≤ clock.micros ∧ clock.micros ≤ latest

instance (clock : WallClock) : Decidable clock.IsReadable :=
  inferInstanceAs (Decidable (earliest ≤ clock.micros ∧ clock.micros ≤ latest))

theorem isReadable_iff {clock : WallClock} : clock.IsReadable ↔ ∃ now, clock.read = .ok now := by
  unfold IsReadable read
  split
  next hout => exact ⟨fun h => by omega, nofun⟩
  next hin => exact ⟨fun _ => ⟨_, rfl⟩, fun _ => by omega⟩

theorem IsReadable.read_ne_error {clock : WallClock} (h : clock.IsReadable) (fault : Fault) :
    clock.read ≠ .error fault := by
  obtain ⟨now, hnow⟩ := isReadable_iff.mp h
  rw [hnow]
  exact nofun

/-- There is one way only in which a clock cannot be read. -/
theorem read_error {clock : WallClock} {fault : Fault} (h : clock.read = .error fault) :
    fault = .clockOutOfRange := by
  unfold read at h
  split at h
  · cases h
    rfl
  · cases h

end WallClock

/-- A day of the calendar and a time of that day. -/
structure DateTime where
  year : Nat
  month : Nat
  day : Nat
  hour : Nat
  minute : Nat
  second : Nat
  micro : Nat
deriving DecidableEq

namespace DateTime

/-- The year, month and day of a number of days since 1970. Years are counted from March, so that
a leap day is a year's last day, and in eras of 400 years. -/
def civil (days : Nat) : Nat × Nat × Nat :=
  let z := days + 719468
  let era := z / 146097
  let dayOfEra := z % 146097
  let yearOfEra := (dayOfEra - dayOfEra / 1460 + dayOfEra / 36524 - dayOfEra / 146096) / 365
  let dayOfYear := dayOfEra - (365 * yearOfEra + yearOfEra / 4 - yearOfEra / 100)
  let fromMarch := (5 * dayOfYear + 2) / 153
  let day := dayOfYear - (153 * fromMarch + 2) / 5 + 1
  let month := if fromMarch < 10 then fromMarch + 3 else fromMarch - 9
  let year := yearOfEra + era * 400
  (if month ≤ 2 then year + 1 else year, month, day)

def ofMicros (v : Nat) : DateTime :=
  let seconds := v / 1000000
  let (year, month, day) := civil (seconds / 86400)
  let ofDay := seconds % 86400
  ⟨year, month, day, ofDay / 3600, ofDay / 60 % 60, ofDay % 60, v % 1000000⟩

/-- A number in decimal with zeros in front up to a width. -/
def padded (width v : Nat) : String :=
  let digits := toString v
  String.ofList (List.replicate (width - digits.length) '0') ++ digits

def text (t : DateTime) : String :=
  s!"{t.year}-" ++ padded 2 t.month ++ "-" ++ padded 2 t.day ++ "T" ++ padded 2 t.hour ++ ":" ++
    padded 2 t.minute ++ ":" ++ padded 2 t.second ++ "." ++ padded 6 t.micro

end DateTime

namespace Counter

/-- The whole milliseconds of a timestamp. -/
def toMillis (t : Timestamp) : Nat := t.number / 1000

/-- The span since an earlier timestamp, none since a later one. -/
def since (t earlier : Timestamp) : Duration := .ofMicros (t.number - earlier.number)

/-- The day and time of a timestamp, unless it is past the calendar. -/
def toDateTime (t : Timestamp) : Option DateTime :=
  if (t.number : Int) ≤ WallClock.latest then some (.ofMicros t.number) else none

/-- The millisecond that serials are counted from. -/
def serialEpoch : Nat := 1518000000000

/-- The serial of a validator that starts at a time: later than all it used before. -/
def startSerial (t : Timestamp) : Serial := .ofNatClamped (t.toMillis - serialEpoch)

end Counter

end QuorumChain
