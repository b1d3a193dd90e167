import Overload.Number.Shortest

/-! How the digits of a double are laid out as text. -/

namespace Overload.Number

structure Layout where
  lowest : Int
  highest : Int
  keepsPoint : Bool
  exponentWidth : Nat
  signedZero : Bool
  nan : String
  infinity : String

def plainLayout : Layout := ⟨-5, 21, false, 1, false, "NaN", "Infinity"⟩

def exactLayout : Layout := ⟨-3, 16, true, 2, true, "nan", "inf"⟩

def zeros (n : Nat) : List Char := List.replicate n '0'

def padLeft (width : Nat) (cs : List Char) : List Char := zeros (width - cs.length) ++ cs

namespace Layout

def positional (l : Layout) (digits : List Char) (point : Int) : List Char :=
  if point ≤ 0 then '0' :: '.' :: zeros (-point).toNat ++ digits
  else if (digits.length : Int) ≤ point then
    digits ++ zeros (point.toNat - digits.length) ++ (if l.keepsPoint then ['.', '0'] else [])
  else digits.take point.toNat ++ '.' :: digits.drop point.toNat

def scientific (l : Layout) (digits : List Char) (point : Int) : List Char :=
  let e := point - 1
  let tail := if digits.length ≤ 1 then [] else '.' :: digits.drop 1
  digits.take 1 ++ tail ++ 'e' :: (if e < 0 then '-' else '+') ::
    padLeft l.exponentWidth (Nat.toDigits 10 e.natAbs)

def digitsText (l : Layout) (d : Decimal) : List Char :=
  let digits := Nat.toDigits 10 d.coefficient
  let point := (digits.length : Int) + d.exponent
  if l.lowest ≤ point ∧ point ≤ l.highest then l.positional digits point
  else l.scientific digits point

def text (l : Layout) (x : Float) : String :=
  if x.isNaN then l.nan
  else if x.isInf then (if signBit x then "-" ++ l.infinity else l.infinity)
  else
    let d := decode x
    if d.significand = 0 then
      (if d.negative && l.signedZero then "-" else "") ++ (if l.keepsPoint then "0.0" else "0")
    else
      (if d.negative then "-" else "") ++ String.ofList (l.digitsText d.shortest)

end Layout

end Overload.Number
