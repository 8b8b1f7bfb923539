import QuorumChain.Bytes
import QuorumChain.Fault

/-!
Counters below 2^64 of several kinds, with a big-endian form of eight bytes.
-/

namespace QuorumChain

/-- What a counter counts. -/
inductive CounterKind where
  /-- blocks of a chain, from 0 -/
  | height
  /-- attempts to agree at one height, from 0 -/
  | round
  /-- changes of a validator's own status -/
  | serial
  /-- microseconds since 1970, UTC -/
  | timestamp
deriving DecidableEq

/-- A counter of one kind. -/
@[ext] structure Counter (kind : CounterKind) where
  number : Nat
  number_lt : number < 2 ^ 64
deriving DecidableEq

abbrev Height := Counter .height
abbrev Round := Counter .round
abbrev Serial := Counter .serial
abbrev Timestamp := Counter .timestamp

namespace Counter

variable {kind : CounterKind}

def ofNat? (v : Nat) : Option (Counter kind) :=
  if h : v < 2 ^ 64 then some ⟨v, h⟩ else none

/-- The counter at a number, or the greatest one if the number is too large. -/
def ofNatClamped (v : Nat) : Counter kind :=
  ⟨min v (2 ^ 64 - 1), by omega⟩

def zero : Counter kind := ⟨0, by decide⟩

def last : Counter kind := ⟨2 ^ 64 - 1, by decide⟩

instance : Inhabited (Counter kind) := ⟨zero⟩

instance : LT (Counter kind) := ⟨fun a b => a.number < b.number⟩
instance : LE (Counter kind) := ⟨fun a b => a.number ≤ b.number⟩

theorem lt_def {a b : Counter kind} : a < b ↔ a.number < b.number := Iff.rfl
theorem le_def {a b : Counter kind} : a ≤ b ↔ a.number ≤ b.number := Iff.rfl

instance (a b : Counter kind) : Decidable (a < b) := inferInstanceAs (Decidable (a.number < b.number))
instance (a b : Counter kind) : Decidable (a ≤ b) := inferInstanceAs (Decidable (a.number ≤ b.number))

instance : Max (Counter kind) := ⟨fun a b => if a ≤ b then b else a⟩

def checkedAdd (a : Counter kind) (k : Nat) : Option (Counter kind) := ofNat? (a.number + k)

def next (a : Counter kind) : Option (Counter kind) := a.checkedAdd 1

def prev (a : Counter kind) : Option (Counter kind) :=
  if a.number = 0 then none else some ⟨a.number - 1, by have := a.number_lt; omega⟩

/-- The next counter, or the fault that stands for there being none. -/
def succ (a : Counter kind) (fault : Fault) : Except Fault (Counter kind) :=
  match a.next with
  | some b => .ok b
  | none => .error fault

theorem checkedAdd_eq_some {a b : Counter kind} {k : Nat} :
    a.checkedAdd k = some b ↔ b.number = a.number + k := by
  unfold checkedAdd ofNat?
  have hb := b.number_lt
  split
  · rw [Option.some.injEq, Counter.ext_iff]
    exact eq_comm
  · constructor
    · exact nofun
    · intro h
      omega

theorem next_eq_some {a b : Counter kind} : a.next = some b ↔ b.number = a.number + 1 :=
  checkedAdd_eq_some

theorem lt_of_next {a b : Counter kind} (h : a.next = some b) : a < b := by
  rw [lt_def, next_eq_some.mp h]
  exact Nat.lt_succ_self _

theorem exists_next {a : Counter kind} (h : a.number + 1 < 2 ^ 64) :
    ∃ b, a.next = some b ∧ b.number = a.number + 1 :=
  ⟨⟨a.number + 1, h⟩, next_eq_some.mpr rfl, rfl⟩

theorem checkedAdd_eq_none {a : Counter kind} {k : Nat} :
    a.checkedAdd k = none ↔ 2 ^ 64 ≤ a.number + k := by
  unfold checkedAdd ofNat?
  split
  next h => exact iff_of_false nofun (Nat.not_le_of_lt h)
  next h => exact iff_of_true rfl (Nat.le_of_not_lt h)

theorem next_eq_none {a : Counter kind} : a.next = none ↔ a.number = 2 ^ 64 - 1 := by
  have ha := a.number_lt
  rw [next, checkedAdd_eq_none]
  omega

theorem prev_eq_some {a b : Counter kind} : b.prev = some a ↔ b.number = a.number + 1 := by
  unfold prev
  split
  next h => exact iff_of_false nofun (by omega)
  next h =>
    rw [Option.some.injEq, Counter.ext_iff]
    show b.number - 1 = a.number ↔ _
    omega

theorem succ_eq_ok {a b : Counter kind} {fault : Fault} :
    a.succ fault = .ok b ↔ b.number = a.number + 1 := by
  rw [← next_eq_some]
  unfold succ
  split
  next c hc => simp [hc]
  next hc => simp [hc]

/-- Eight bytes, most significant first. -/
def toBytes (a : Counter kind) : FixedBytes 8 :=
  ⟨bytesOfNat 8 a.number, by simp⟩

def ofBytes (x : FixedBytes 8) : Counter kind :=
  ⟨natOfBytes x.bytes, by simpa [x.length_eq] using natOfBytes_lt x.bytes⟩

@[simp] theorem ofBytes_toBytes (a : Counter kind) : ofBytes a.toBytes = a := by
  ext
  show natOfBytes (bytesOfNat 8 a.number) = a.number
  rw [natOfBytes_bytesOfNat, Nat.mod_eq_of_lt (Nat.lt_of_lt_of_le a.number_lt (by decide))]

@[simp] theorem toBytes_ofBytes (x : FixedBytes 8) : (ofBytes x : Counter kind).toBytes = x := by
  ext1
  exact bytesOfNat_natOfBytes x.length_eq

@[simp] theorem ofNatClamped_number (a : Counter kind) : ofNatClamped a.number = a := by
  have h := a.number_lt
  ext
  show min a.number (2 ^ 64 - 1) = a.number
  omega

/-- The order of the eight byte form. -/
def byteOrder (a b : Counter kind) : Ordering := compare a.toBytes b.toBytes

instance : ToString (Counter kind) := ⟨fun a => toString a.number⟩

end Counter

end QuorumChain
