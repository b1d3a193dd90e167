import Overload.Number.Layout

/-! Numbers are exact integers or doubles. -/

namespace Overload

inductive Num where
  | int (n : Int)
  | float (x : Float)
  deriving Inhabited

namespace Num

open Number

def nan : Num := .float Number.nan

def infinity (negative : Bool) : Num :=
  .float (if negative then -Number.infinity else Number.infinity)

def toFloat? : Num → Option Float
  | .int n => ofInt? n
  | .float x => some x

def isInt : Num → Bool
  | .int _ => true
  | .float _ => false

def isZero : Num → Bool
  | .int n => n == 0
  | .float x => x == 0.0

def isNegative : Num → Bool
  | .int n => n < 0
  | .float x => x < 0.0

def isNaN? : Num → Option Bool
  | .int n => (ofInt? n).map fun _ => false
  | .float x => some x.isNaN

def isInfinite? : Num → Option Bool
  | .int n => (ofInt? n).map fun _ => false
  | .float x => some x.isInf

def compare? : Num → Num → Option Ordering
  | .int a, .int b => some (compare a b)
  | .float x, .float y =>
    if x < y then some .lt else if y < x then some .gt else if x == y then some .eq else none
  | .int a, .float y =>
    if y.isNaN then none
    else if y.isInf then some (if signBit y then .gt else .lt)
    else some ((decode y).compareInt a).swap
  | .float x, .int b =>
    if x.isNaN then none
    else if x.isInf then some (if signBit x then .lt else .gt)
    else some ((decode x).compareInt b)

def equal (a b : Num) : Bool := a.compare? b == some .eq

def ofFloat (x : Float) : Num :=
  if isFiniteInteger x && !(x == 0.0 && signBit x) && (decode x).truncate.natAbs < Nat.pow 2 53 then
    .int (decode x).truncate
  else .float x

def text : Num → String
  | .int n => toString n
  | .float x => plainLayout.text x

def describe : Num → String
  | .int n => toString n
  | .float x => exactLayout.text x

/-- The most digits that a numeral may have to be written or read. -/
def digitLimit : Nat := 4300

def isWritable : Num → Bool
  | .int n => decimalLength n.natAbs ≤ digitLimit
  | .float _ => true

def truncate : Num → Int
  | .int n => n
  | .float x => if x.isFinite then (decode x).truncate else 0

end Num

end Overload
