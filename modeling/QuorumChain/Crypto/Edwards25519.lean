import QuorumChain.Bytes
import QuorumChain.Crypto.Field25519

/-!
The twisted Edwards curve -x² + y² = 1 + d x² y² over the field of 2^255 - 19 elements, in extended
coordinates (X : Y : Z : T) with x = X / Z, y = Y / Z and T = X Y / Z.
-/

namespace QuorumChain.Edwards25519

open Field25519

/-- The order of the base point. -/
def groupOrder : Nat := 2 ^ 252 + 27742317777372353535851937790883648493

/-- The curve's constant -121665 / 121666. -/
def curveD : Element := -(121665 * Element.inverse 121666)

def curveTwoD : Element := curveD + curveD

/-- A point in extended coordinates. -/
structure Point where
  x : Element
  y : Element
  z : Element
  t : Element

namespace Point

/-- The neutral element. -/
def zero : Point := ⟨0, 1, 1, 0⟩

def ofAffine (x y : Element) : Point := ⟨x, y, 1, x * y⟩

def neg (p : Point) : Point := ⟨-p.x, p.y, p.z, -p.t⟩

def double (p : Point) : Point :=
  let a := p.x * p.x
  let b := p.y * p.y
  let zz := p.z * p.z
  let e := (p.x + p.x) * p.y
  let g := b - a
  let f := g - (zz + zz)
  let h := -(a + b)
  ⟨e * f, g * h, f * g, e * h⟩

end Point

/-- What adding a point needs of it: Y - X, Y + X, 2 Z and 2 d T. -/
structure Addend where
  difference : Element
  sum : Element
  twoZ : Element
  twoDT : Element

def Point.toAddend (p : Point) : Addend := ⟨p.y - p.x, p.y + p.x, p.z + p.z, p.t * curveTwoD⟩

/-- The sum of any two points. -/
def Point.add (p : Point) (q : Addend) : Point :=
  let a := (p.y - p.x) * q.difference
  let b := (p.y + p.x) * q.sum
  let c := p.t * q.twoDT
  let d := p.z * q.twoZ
  let e := b - a
  let f := d - c
  let g := d + c
  let h := b + a
  ⟨e * f, g * h, f * g, e * h⟩

/-- The multiples 0 to 15 of a point. -/
def smallMultiples (p : Point) : Vector Addend 16 :=
  let q := p.toAddend
  let p2 := p.double
  let p3 := p2.add q
  let p4 := p2.double
  let p5 := p4.add q
  let p6 := p3.double
  let p7 := p6.add q
  let p8 := p4.double
  let p9 := p8.add q
  let p10 := p5.double
  let p11 := p10.add q
  let p12 := p6.double
  let p13 := p12.add q
  let p14 := p7.double
  #v[Point.zero.toAddend, q, p2.toAddend, p3.toAddend, p4.toAddend, p5.toAddend, p6.toAddend,
    p7.toAddend, p8.toAddend, p9.toAddend, p10.toAddend, p11.toAddend, p12.toAddend, p13.toAddend,
    p14.toAddend, (p14.add q).toAddend]

/-- The last `count` hexadecimal digits of a number, the least significant first. -/
def hexDigits : (count : Nat) → Nat → List (Fin 16)
  | 0, _ => []
  | count + 1, v => ⟨v % 16, Nat.mod_lt _ (by decide)⟩ :: hexDigits count (v / 16)

/-- Adds one of the small multiples of a point. -/
def Point.addDigit (p : Point) (multiples : Vector Addend 16) (digit : Fin 16) : Point :=
  if digit.val = 0 then p else p.add (multiples.get digit)

/-- Sixteen times a point. -/
def Point.shift (p : Point) : Point := p.double.double.double.double

/-- The multiple of a point by a number given by its digits. -/
def combine (multiples : Vector Addend 16) : List (Fin 16) → Point
  | [] => Point.zero
  | digit :: rest => (combine multiples rest).shift.addDigit multiples digit

/-- The small multiples of a point, of its sixteenfold and so on, for so many digits. -/
def multiplesByDigit : (count : Nat) → Point → List (Vector Addend 16)
  | 0, _ => []
  | count + 1, p => smallMultiples p :: multiplesByDigit count p.shift

/-- The even x of the points with a given y, if there are any. -/
def evenX? (y : Element) : Option Element :=
  Element.sqrtRatio? (y * y - 1) (curveD * (y * y) + 1)

/-- The number of a byte string, the first byte least significant. -/
def littleEndian (bs : List UInt8) : Nat := natOfBytes bs.reverse

/-- The point of a 32 byte string: y with the parity of x in the top bit. A y that is not reduced
and an odd x that is zero are taken as they are. -/
def Point.ofBytes? (bs : List UInt8) : Option Point :=
  let v := littleEndian bs
  let y : Element := .ofNat (v % 2 ^ 255)
  (evenX? y).map fun x => .ofAffine (if v / 2 ^ 255 % 2 = 1 then -x else x) y

def Point.toBytes (p : Point) : List UInt8 :=
  let zi := p.z.inverse
  let x := (p.x * zi).residue
  let y := (p.y * zi).residue
  (bytesOfNat 32 (x % 2 * 2 ^ 255 + y)).reverse

/-- The base point has y = 4 / 5 and an even x. -/
def basePoint : Point :=
  let y := 4 * Element.inverse 5
  .ofAffine ((evenX? y).getD 0) y

def baseMultiples : List (Vector Addend 16) := multiplesByDigit 64 basePoint

/-- A multiple of the base point added to a point, for a number below 2^256. -/
def Point.addScaledBase (p : Point) (k : Nat) : Point :=
  ((hexDigits 64 k).zip baseMultiples).foldl (fun p (digit, multiples) => p.addDigit multiples digit) p

/-- A multiple of the base point, for a number below 2^256. -/
def scaleBase (k : Nat) : Point := Point.zero.addScaledBase k

/-- The sum j B + k p with the base point B, for numbers below 2^256. -/
def scaleBaseAdd (j k : Nat) (p : Point) : Point :=
  (combine (smallMultiples p) (hexDigits 64 k)).addScaledBase j

end QuorumChain.Edwards25519
