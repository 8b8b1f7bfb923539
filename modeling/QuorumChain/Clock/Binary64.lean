import QuorumChain.Power

/-!
Binary numbers of 53 significant bits, rounded to the nearest, ties to an even last bit. Only
non-negative numbers are here, and exponents are not bounded.
-/

namespace QuorumChain

/-- The natural number nearest to a quotient, the even one of two. -/
def divNearest (num den : Nat) : Nat :=
  let q := num / den
  let r := num % den
  if 2 * r < den ∨ (2 * r = den ∧ q % 2 = 0) then q else q + 1

/-- The number `mantissa * 2 ^ exponent`. -/
structure Binary64 where
  mantissa : Nat
  exponent : Int
deriving DecidableEq

namespace Binary64

/-- The number of 53 bits nearest to `m * 2 ^ e`. -/
def nearest (m : Nat) (e : Int) : Binary64 :=
  if m < 2 ^ 53 then ⟨m, e⟩
  else
    let excess := m.log2 + 1 - 53
    ⟨divNearest m (2 ^ excess), e + excess⟩

def ofNat (v : Nat) : Binary64 := nearest v 0

/-- The number nearest to a quotient: so many bits are computed that one more, which tells whether
there are any others, decides all ties. -/
def ofQuotient (num den : Nat) : Binary64 :=
  let shift := 64 + den.log2
  let q := num * 2 ^ shift / den
  let sticky := if num * 2 ^ shift % den = 0 then 0 else 1
  nearest (2 * q + sticky) (-(shift : Int) - 1)

def mul (x y : Binary64) : Binary64 := nearest (x.mantissa * y.mantissa) (x.exponent + y.exponent)

def add (x y : Binary64) : Binary64 :=
  let e := min x.exponent y.exponent
  nearest (x.mantissa * 2 ^ (x.exponent - e).toNat + y.mantissa * 2 ^ (y.exponent - e).toNat) e

/-- Powers by squaring, each product rounded; `acc` is what is multiplied up so far. -/
def powerAcc (acc x : Binary64) (k : Nat) : Binary64 :=
  let acc := if k % 2 = 1 then acc.mul x else acc
  if h : k / 2 = 0 then acc else powerAcc acc (x.mul x) (k / 2)
termination_by k
decreasing_by omega

def power (x : Binary64) (k : Nat) : Binary64 := powerAcc (ofNat 1) x k

/-- The natural number nearest to a multiple. -/
def timesNat (x : Binary64) (k : Nat) : Nat :=
  if 0 ≤ x.exponent then x.mantissa * k * 2 ^ x.exponent.toNat
  else divNearest (x.mantissa * k) (2 ^ (-x.exponent).toNat)

end Binary64

end QuorumChain
