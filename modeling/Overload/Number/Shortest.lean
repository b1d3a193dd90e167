import Overload.Number.Binary64

/-!
The shortest decimal that reads back as a given double: of the decimals with the fewest digits
inside the interval of reals that round to it, the nearest.
-/

namespace Overload.Number

structure Decimal where
  coefficient : Nat
  exponent : Int
  deriving DecidableEq, Repr

def decimalLength (n : Nat) : Nat := (Nat.toDigits 10 n).length

def Decimal.strip : Nat → Decimal → Decimal
  | 0, d => d
  | fuel + 1, d =>
    if d.coefficient ≠ 0 ∧ d.coefficient % 10 = 0 then
      Decimal.strip fuel ⟨d.coefficient / 10, d.exponent + 1⟩
    else d

structure Interval where
  low : Nat
  value : Nat
  high : Nat
  unit : Int
  closed : Bool

def Dyadic.interval (d : Dyadic) : Interval :=
  let step := if d.significand = Nat.pow 2 52 ∧ -1074 < d.exponent then 1 else 2
  ⟨4 * d.significand - step, 4 * d.significand, 4 * d.significand + 2, d.exponent - 2,
    d.significand % 2 = 0⟩

def comparePowers (n : Nat) (e : Int) (m : Nat) (u : Int) : Ordering :=
  compare (n * Nat.pow 10 e.toNat * Nat.pow 2 (-u).toNat)
    (m * Nat.pow 2 u.toNat * Nat.pow 10 (-e).toNat)

namespace Interval

def holds (i : Interval) (d : Decimal) : Bool :=
  let below := comparePowers d.coefficient d.exponent i.low i.unit
  let above := comparePowers d.coefficient d.exponent i.high i.unit
  (below == .gt || i.closed && below == .eq) && (above == .lt || i.closed && above == .eq)

def floorAt (i : Interval) (e : Int) : Nat :=
  i.value * Nat.pow 2 i.unit.toNat * Nat.pow 10 (-e).toNat /
    (Nat.pow 10 e.toNat * Nat.pow 2 (-i.unit).toNat)

def point (i : Interval) : Int := (decimalLength (i.floorAt (-400)) : Int) - 400

def nearer (i : Interval) (s : Nat) (e : Int) : Nat :=
  match comparePowers (2 * s + 1) e (2 * i.value) i.unit with
  | .lt => s + 1
  | .gt => s
  | .eq => if s % 2 = 0 then s else s + 1

def candidate? (i : Interval) (e : Int) : Option Decimal :=
  let s := i.floorAt e
  match i.holds ⟨s, e⟩, i.holds ⟨s + 1, e⟩ with
  | true, true => some ⟨i.nearer s e, e⟩
  | true, false => some ⟨s, e⟩
  | false, true => some ⟨s + 1, e⟩
  | false, false => none

def search (i : Interval) (point : Int) (digits : Nat) : Nat → Decimal
  | 0 => ⟨i.floorAt (point - digits), point - digits⟩
  | fuel + 1 =>
    match i.candidate? (point - digits) with
    | some d => d
    | none => i.search point (digits + 1) fuel

end Interval

def Dyadic.shortest (d : Dyadic) : Decimal :=
  if d.significand = 0 then ⟨0, 0⟩
  else (d.interval.search d.interval.point 1 17).strip 400

end Overload.Number
