import Overload.Number.Basic

/-! Arithmetic on numbers: exact on integers wherever the result is one. -/

namespace Overload.Num

open Number

def add? : Num → Num → Option Num
  | .int a, .int b => some (.int (a + b))
  | a, b => do return .float ((← a.toFloat?) + (← b.toFloat?))

def sub? : Num → Num → Option Num
  | .int a, .int b => some (.int (a - b))
  | a, b => do return .float ((← a.toFloat?) - (← b.toFloat?))

def mul? : Num → Num → Option Num
  | .int a, .int b => some (.int (a * b))
  | a, b => do return .float ((← a.toFloat?) * (← b.toFloat?))

def neg : Num → Num
  | .int n => if n = 0 then .float negativeZero else .int (-n)
  | .float x => .float (-x)

def sign : Num → Bool
  | .int n => n < 0
  | .float x => signBit x

def divideByZero? (x y : Num) : Option Num := do
  if x.isZero || (← x.isNaN?) then return nan
  return infinity (x.sign != y.sign)

def div? (x y : Num) : Option Num :=
  if y.isZero then divideByZero? x y
  else match x, y with
    | .int a, .int b =>
      if a % b = 0 then some (.int (a / b)) else (ofQuotient? a b).map .float
    | x, y => do return .float ((← x.toFloat?) / (← y.toFloat?))

def mod? : Num → Num → Option Num
  | .int a, .int b => some (if b = 0 then nan else .int (a.tmod b))
  | x, y => do
    if ← x.isNaN? then return nan
    if ← y.isNaN? then return nan
    if (← x.isInfinite?) || y.isZero then return nan
    if ← y.isInfinite? then return x
    return .float (remainder (← x.toFloat?) (← y.toFloat?))

def isOdd : Num → Bool
  | .int n => n % 2 = 1
  | .float x => isFiniteInteger x && (decode x).truncate % 2 = 1

def isUnit : Num → Bool
  | .int n => n.natAbs = 1
  | .float x => x == 1.0 || x == -1.0

def specialPower (x y : Float) : Float :=
  let odd := isOdd (.float y)
  if x.isNaN then (if y == 0.0 then 1.0 else x)
  else if y.isNaN then (if x == 1.0 then 1.0 else y)
  else if x.isInf then
    if 0.0 < y then (if odd then x else x.abs)
    else if y == 0.0 then 1.0
    else if odd && signBit x then negativeZero else 0.0
  else if x.abs == 1.0 then 1.0
  else if 0.0 < y && 1.0 < x.abs then y
  else if y < 0.0 && x.abs < 1.0 then -y
  else 0.0

def overflowPower? (x y : Num) : Option Num := do
  if x.isNegative then
    let y' ← y.toFloat?
    return infinity (isFiniteInteger y' && y.isOdd)
  return infinity false

def floatPower? (x y : Num) : Option Num :=
  match x.toFloat?, y.toFloat? with
  | some a, some b =>
    if a.isFinite && b.isFinite then
      let r := Float.pow a b
      if r.isNaN then some nan
      else if r.isInf then overflowPower? x y
      else some (ofFloat r)
    else some (ofFloat (specialPower a b))
  | _, _ => overflowPower? x y

def intPower? (x y : Int) : Option Num :=
  if x = 0 ∨ x = 1 then some (.int x)
  else if x = -1 then some (.int (if y % 2 = 0 then 1 else -1))
  else do
    let y' ← ofInt? y
    let small : Bool := match ofInt? x.natAbs with
      | some a => decide (y' * Float.log2 a < 1024.0)
      | none => false
    return if small then .int (Int.pow x y.toNat) else infinity (x < 0 && y % 2 == 1)

def pow? (x y : Num) : Option Num := do
  if let .float b := y then
    if b.isNaN then return nan
  if y.isZero then return .int 1
  if let .float a := x then
    if a.isNaN then return nan
  if x.isUnit then
    if ← y.isInfinite? then return nan
  match x, y with
  | .int a, .int b => if 0 ≤ b then intPower? a b else general x y
  | _, _ => general x y
where
  general (x y : Num) : Option Num :=
    if x.isZero && y.isNegative then do
      let y' ← y.toFloat?
      return infinity (!x.isInt && x.sign && isFiniteInteger y' && y.isOdd)
    else floatPower? x y

def wrap32 (n : Int) : Int :=
  let r := n % 0x100000000
  if 0x80000000 ≤ r then r - 0x100000000 else r

theorem wrap32_emod (n : Int) : wrap32 n % 0x100000000 = n % 0x100000000 := by
  simp only [wrap32]
  split <;> omega

end Overload.Num
