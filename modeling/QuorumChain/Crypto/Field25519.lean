import QuorumChain.Power

/-!
The field of 2^255 - 19 elements.

An element is kept in ten limbs, so that products of limbs and their sums fit a machine word. What an
element stands for is said by its residue.
-/

namespace QuorumChain.Field25519

/-- The number of elements. -/
def order : Nat := 2 ^ 255 - 19

/-- An element in limbs of 26 and 25 bits in turn, the least significant first. A limb may be a little
larger than that, and the whole need not be reduced, so an element has several forms. -/
structure Element where
  l0 : UInt64
  l1 : UInt64
  l2 : UInt64
  l3 : UInt64
  l4 : UInt64
  l5 : UInt64
  l6 : UInt64
  l7 : UInt64
  l8 : UInt64
  l9 : UInt64

namespace Element

/-- The number below the field's order that an element stands for. -/
def residue (x : Element) : Nat :=
  (x.l0.toNat + x.l1.toNat * 2 ^ 26 + x.l2.toNat * 2 ^ 51 + x.l3.toNat * 2 ^ 77 +
    x.l4.toNat * 2 ^ 102 + x.l5.toNat * 2 ^ 128 + x.l6.toNat * 2 ^ 153 + x.l7.toNat * 2 ^ 179 +
    x.l8.toNat * 2 ^ 204 + x.l9.toNat * 2 ^ 230) % order

/-- The `bits` bits of a number from a place on. -/
def limbOf (v place bits : Nat) : UInt64 := UInt64.ofNat (v / 2 ^ place % 2 ^ bits)

def ofNat (v : Nat) : Element :=
  let v := v % order
  ⟨limbOf v 0 26, limbOf v 26 25, limbOf v 51 26, limbOf v 77 25, limbOf v 102 26, limbOf v 128 25,
    limbOf v 153 26, limbOf v 179 25, limbOf v 204 26, limbOf v 230 25⟩

instance {v : Nat} : OfNat Element v := ⟨ofNat v⟩

/-- The low bits of a limb with an even number. -/
def lowEven (x : UInt64) : UInt64 := x &&& 0x3ffffff

/-- The low bits of a limb with an odd number. -/
def lowOdd (x : UInt64) : UInt64 := x &&& 0x1ffffff

/-- Hands on what is too much for a limb. What leaves the last one comes back to the first, nineteen
times, and the first one is cut once more. -/
@[inline] def carry (x : Element) : Element :=
  let l1 := x.l1 + (x.l0 >>> 26)
  let l2 := x.l2 + (l1 >>> 25)
  let l3 := x.l3 + (l2 >>> 26)
  let l4 := x.l4 + (l3 >>> 25)
  let l5 := x.l5 + (l4 >>> 26)
  let l6 := x.l6 + (l5 >>> 25)
  let l7 := x.l7 + (l6 >>> 26)
  let l8 := x.l8 + (l7 >>> 25)
  let l9 := x.l9 + (l8 >>> 26)
  let excess := l9 >>> 25
  let l0 := lowEven x.l0 + 19 * excess
  ⟨lowEven l0, lowOdd l1 + (l0 >>> 26), lowEven l2, lowOdd l3, lowEven l4, lowOdd l5, lowEven l6,
    lowOdd l7, lowEven l8, lowOdd l9⟩

def add (x y : Element) : Element :=
  carry ⟨x.l0 + y.l0, x.l1 + y.l1, x.l2 + y.l2, x.l3 + y.l3, x.l4 + y.l4, x.l5 + y.l5, x.l6 + y.l6,
    x.l7 + y.l7, x.l8 + y.l8, x.l9 + y.l9⟩

/-- Twice the order is added first, limb by limb, so that no limb falls below zero. -/
def sub (x y : Element) : Element :=
  let even : UInt64 := 0x7fffffe
  let odd : UInt64 := 0x3fffffe
  carry ⟨x.l0 + 0x7ffffda - y.l0, x.l1 + odd - y.l1, x.l2 + even - y.l2, x.l3 + odd - y.l3,
    x.l4 + even - y.l4, x.l5 + odd - y.l5, x.l6 + even - y.l6, x.l7 + odd - y.l7, x.l8 + even - y.l8,
    x.l9 + odd - y.l9⟩

/-- Limb `k` of a product sums up the products of limbs `i` and `j` with `i + j = k`. Those with
`i + j = k + 10` count nineteen times (`w`), and those of two odd limbs twice (`d`), as their places
add up to one more than the place of limb `i + j`. -/
def mul (x y : Element) : Element :=
  let w1 := 19 * y.l1
  let w2 := 19 * y.l2
  let w3 := 19 * y.l3
  let w4 := 19 * y.l4
  let w5 := 19 * y.l5
  let w6 := 19 * y.l6
  let w7 := 19 * y.l7
  let w8 := 19 * y.l8
  let w9 := 19 * y.l9
  let d1 := 2 * x.l1
  let d3 := 2 * x.l3
  let d5 := 2 * x.l5
  let d7 := 2 * x.l7
  let d9 := 2 * x.l9
  let l0 := x.l0 * y.l0 + d1 * w9 + x.l2 * w8 + d3 * w7 + x.l4 * w6 +
    d5 * w5 + x.l6 * w4 + d7 * w3 + x.l8 * w2 + d9 * w1
  let l1 := x.l0 * y.l1 + x.l1 * y.l0 + x.l2 * w9 + x.l3 * w8 + x.l4 * w7 +
    x.l5 * w6 + x.l6 * w5 + x.l7 * w4 + x.l8 * w3 + x.l9 * w2
  let l2 := x.l0 * y.l2 + d1 * y.l1 + x.l2 * y.l0 + d3 * w9 + x.l4 * w8 +
    d5 * w7 + x.l6 * w6 + d7 * w5 + x.l8 * w4 + d9 * w3
  let l3 := x.l0 * y.l3 + x.l1 * y.l2 + x.l2 * y.l1 + x.l3 * y.l0 + x.l4 * w9 +
    x.l5 * w8 + x.l6 * w7 + x.l7 * w6 + x.l8 * w5 + x.l9 * w4
  let l4 := x.l0 * y.l4 + d1 * y.l3 + x.l2 * y.l2 + d3 * y.l1 + x.l4 * y.l0 +
    d5 * w9 + x.l6 * w8 + d7 * w7 + x.l8 * w6 + d9 * w5
  let l5 := x.l0 * y.l5 + x.l1 * y.l4 + x.l2 * y.l3 + x.l3 * y.l2 + x.l4 * y.l1 +
    x.l5 * y.l0 + x.l6 * w9 + x.l7 * w8 + x.l8 * w7 + x.l9 * w6
  let l6 := x.l0 * y.l6 + d1 * y.l5 + x.l2 * y.l4 + d3 * y.l3 + x.l4 * y.l2 +
    d5 * y.l1 + x.l6 * y.l0 + d7 * w9 + x.l8 * w8 + d9 * w7
  let l7 := x.l0 * y.l7 + x.l1 * y.l6 + x.l2 * y.l5 + x.l3 * y.l4 + x.l4 * y.l3 +
    x.l5 * y.l2 + x.l6 * y.l1 + x.l7 * y.l0 + x.l8 * w9 + x.l9 * w8
  let l8 := x.l0 * y.l8 + d1 * y.l7 + x.l2 * y.l6 + d3 * y.l5 + x.l4 * y.l4 +
    d5 * y.l3 + x.l6 * y.l2 + d7 * y.l1 + x.l8 * y.l0 + d9 * w9
  let l9 := x.l0 * y.l9 + x.l1 * y.l8 + x.l2 * y.l7 + x.l3 * y.l6 + x.l4 * y.l5 +
    x.l5 * y.l4 + x.l6 * y.l3 + x.l7 * y.l2 + x.l8 * y.l1 + x.l9 * y.l0
  carry ⟨l0, l1, l2, l3, l4, l5, l6, l7, l8, l9⟩

instance : Add Element := ⟨add⟩
instance : Sub Element := ⟨sub⟩
instance : Mul Element := ⟨mul⟩
instance : Neg Element := ⟨fun x => 0 - x⟩

/-- Elements are equal if they stand for the same number. -/
instance : BEq Element := ⟨fun x y => x.residue == y.residue⟩

def isOdd (x : Element) : Bool := x.residue % 2 = 1

/-- The square of the square, so many times. -/
def squareTimes : (count : Nat) → Element → Element
  | 0, x => x
  | k + 1, x => squareTimes k (x * x)

/-- The power with exponent 2^k - 1. -/
def powerOnes (x : Element) (k : Nat) : Element :=
  if _h : k ≤ 1 then (if k = 0 then 1 else x)
  else
    let half := powerOnes x (k / 2)
    let double := squareTimes (k / 2) half * half
    if k % 2 = 1 then double * double * x else double
termination_by k
decreasing_by omega

/-- The power with exponent 2^255 - 21, two less than the order. -/
def inverse (x : Element) : Element :=
  squareTimes 5 (powerOnes x 250) * (squareTimes 3 x * x * x * x)

/-- The power with exponent 2^252 - 3, an eighth of five less than the order. -/
def powerRoot (x : Element) : Element := squareTimes 2 (powerOnes x 250) * x

/-- A square root of -1, the power of 2 with exponent 2^253 - 5. -/
def rootOfMinusOne : Element := squareTimes 3 (powerOnes 2 250) * 8

/-- A root of u / v with an even residue, if there is one. -/
def sqrtRatio? (u v : Element) : Option Element :=
  let v3 := v * v * v
  let r := u * v3 * powerRoot (u * v3 * v3 * v)
  let check := v * r * r
  let even (x : Element) := if x.isOdd then -x else x
  if check == u then some (even r)
  else if check == -u then some (even (r * rootOfMinusOne))
  else none

end Element

end QuorumChain.Field25519
