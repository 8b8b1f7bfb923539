import QuorumChain.Counter

/-!
Validators of a chain: their number is fixed, and each is known by its position.
-/

namespace QuorumChain

/-- The position of a validator. -/
@[ext] structure PeerIndex where
  number : Nat
  number_lt : number < 256
deriving DecidableEq

namespace PeerIndex

def ofNat? (v : Nat) : Option PeerIndex :=
  if h : v < 256 then some ⟨v, h⟩ else none

/-- Every position, ascending. -/
def all : List PeerIndex :=
  (List.finRange 256).map fun i => ⟨i.val, i.isLt⟩

instance : ToString PeerIndex := ⟨fun i => toString i.number⟩

end PeerIndex

/-- The number of validators of a chain. -/
@[ext] structure ValidatorCount where
  total : Nat
  total_lt : total < 256
deriving DecidableEq

/-- A list of as many things as there are validators has one for each of them. -/
instance {n : ValidatorCount} {α : Type} :
    GetElem (Vector α n.total) (Fin n.total) α fun _ _ => True where
  getElem v i _ := v.get i

@[simp] theorem getElem_member {n : ValidatorCount} {α : Type} (v : Vector α n.total) (i : Fin n.total) :
    v[i] = v[i.val] := rfl

namespace ValidatorCount

/-- The list with another thing for one validator. -/
def update (n : ValidatorCount) {α : Type} (v : Vector α n.total) (i : Fin n.total) (a : α) :
    Vector α n.total := v.set i a i.isLt

@[simp] theorem update_eq (n : ValidatorCount) {α : Type} (v : Vector α n.total) (i : Fin n.total)
    (a : α) : n.update v i a = v.set i a i.isLt := rfl

def ofNat? (v : Nat) : Option ValidatorCount :=
  if h : v < 256 then some ⟨v, h⟩ else none

/-- The count of a list of a given length; positions reach only so far. -/
def ofLength (length : Nat) : Except Fault ValidatorCount :=
  match ofNat? length with
  | some n => .ok n
  | none => .error .tooManyValidators

/-- How many validators may be faulty. -/
def maxFaulty (n : ValidatorCount) : Nat := (n.total - 1) / 3

/-- How many validators have to agree. Two sets of this size share more than `maxFaulty` members. -/
def threshold (n : ValidatorCount) : Nat := n.total - n.maxFaulty

def contains (n : ValidatorCount) (i : PeerIndex) : Bool := i.number < n.total

/-- The positions in use, ascending. -/
def peers (n : ValidatorCount) : List PeerIndex :=
  (List.finRange n.total).map fun i => ⟨i.val, Nat.lt_trans i.isLt n.total_lt⟩

/-- The position of a validator among all positions. -/
def indexOf (n : ValidatorCount) (i : Fin n.total) : PeerIndex := ⟨i.val, Nat.lt_trans i.isLt n.total_lt⟩

/-- The validator at a position, if it is in use. -/
def memberAt? (n : ValidatorCount) (i : PeerIndex) : Option (Fin n.total) :=
  if h : i.number < n.total then some ⟨i.number, h⟩ else none

/-- The validator that builds the block of a round: they take turns. -/
def primary (n : ValidatorCount) (h : 0 < n.total) (height : Height) (round : Round) : Fin n.total :=
  ⟨(height.number + round.number) % n.total, Nat.mod_lt _ h⟩

/-- The position of the primary; there has to be a validator. -/
def primaryIndex (n : ValidatorCount) (height : Height) (round : Round) : Except Fault PeerIndex :=
  if h : 0 < n.total then .ok (n.indexOf (n.primary h height round)) else .error .noValidators

end ValidatorCount

end QuorumChain
