/-! The bits of an integer in two's complement. -/

namespace Overload.Number

def magnitude : Int → Nat
  | .ofNat n => n
  | .negSucc n => n

def isNegative (n : Int) : Bool := n < 0

def joinBits (f : Bool → Bool → Bool) (a b : Int) : Int :=
  let negative := f (isNegative a) (isNegative b)
  let differs (x y : Bool) := f (x != isNegative a) (y != isNegative b) != negative
  let m := Nat.bitwise differs (magnitude a) (magnitude b)
  if negative then .negSucc m else m

end Overload.Number
