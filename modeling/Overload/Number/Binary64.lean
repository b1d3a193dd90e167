/-!
Doubles through their bits: the exact value of a finite double, and the double nearest to a
fraction, ties to the even significand.
-/

namespace Overload.Number

structure Dyadic where
  negative : Bool
  significand : Nat
  exponent : Int
  deriving DecidableEq, Repr

def signBit (x : Float) : Bool := x.toBits.toNat / Nat.pow 2 63 % 2 == 1

def decode (x : Float) : Dyadic :=
  let bits := x.toBits.toNat
  let biased : Nat := bits / Nat.pow 2 52 % Nat.pow 2 11
  let fraction : Nat := bits % Nat.pow 2 52
  if biased = 0 then ⟨signBit x, fraction, -1074⟩
  else ⟨signBit x, fraction + Nat.pow 2 52, (biased : Int) - 1075⟩

def roundDiv (num den : Nat) : Nat :=
  let q := num / den
  let r := num % den
  if 2 * r < den then q
  else if den < 2 * r then q + 1
  else if q % 2 = 0 then q else q + 1

def bitLength (n : Nat) : Nat := if n = 0 then 0 else n.log2 + 1

def scale (num den : Nat) (e : Int) : Nat × Nat :=
  if 0 ≤ e then (num, den * Nat.pow 2 e.toNat) else (num * Nat.pow 2 (-e).toNat, den)

def unitExponent (num den : Nat) : Int :=
  let guess : Int := (bitLength num : Int) - bitLength den - 53
  let (a, b) := scale num den guess
  max (if a / b < Nat.pow 2 53 then guess else guess + 1) (-1074)

def signed (negative : Bool) (bits : Nat) : Float :=
  Float.ofBits (UInt64.ofNat (if negative then Nat.pow 2 63 + bits else bits))

def infinityBits : Nat := 2047 * Nat.pow 2 52

def nan : Float := Float.ofBits 0x7ff8000000000000

def infinity : Float := Float.ofBits 0x7ff0000000000000

def negativeZero : Float := Float.ofBits 0x8000000000000000

def ofRatio (negative : Bool) (num den : Nat) : Float :=
  if num = 0 then signed negative 0
  else
    let e := unitExponent num den
    let (a, b) := scale num den e
    let m := roundDiv a b
    let hidden := Nat.pow 2 52
    let bits := if m < hidden then m else (e + 1075).toNat * hidden + (m - hidden)
    signed negative (min bits infinityBits)

def ofInt? (n : Int) : Option Float :=
  let x := ofRatio (n < 0) n.natAbs 1
  if x.isInf then none else some x

def ofQuotient? (x y : Int) : Option Float :=
  let q := ofRatio (decide (x < 0) != decide (y < 0)) x.natAbs y.natAbs
  if q.isInf then none else some q

namespace Dyadic

def truncate (d : Dyadic) : Int :=
  let n := if 0 ≤ d.exponent then d.significand * Nat.pow 2 d.exponent.toNat
    else d.significand / Nat.pow 2 (-d.exponent).toNat
  if d.negative then -(n : Int) else n

def isInteger (d : Dyadic) : Bool :=
  0 ≤ d.exponent || d.significand % Nat.pow 2 (-d.exponent).toNat == 0

def numerator (d : Dyadic) : Int :=
  let n := d.significand * Nat.pow 2 d.exponent.toNat
  if d.negative then -(n : Int) else n

def shift (d : Dyadic) : Nat := (-d.exponent).toNat

def compareInt (d : Dyadic) (n : Int) : Ordering :=
  compare d.numerator (n * Int.pow 2 d.shift)

end Dyadic

def isFiniteInteger (x : Float) : Bool := x.isFinite && (decode x).isInteger

def remainder (x y : Float) : Float :=
  let a := decode x
  let b := decode y
  let low := min a.exponent b.exponent
  let m := a.significand * Nat.pow 2 (a.exponent - low).toNat
  let n := b.significand * Nat.pow 2 (b.exponent - low).toNat
  let r := m % n
  if 0 ≤ low then ofRatio a.negative (r * Nat.pow 2 low.toNat) 1
  else ofRatio a.negative r (Nat.pow 2 (-low).toNat)

end Overload.Number
