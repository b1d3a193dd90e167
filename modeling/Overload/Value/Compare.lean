import Overload.Text.Units
import Overload.Value.Convert

/-! Strict and loose equality, and the order of values. -/

namespace Overload.Value

inductive Domain where
  | undefined | null | boolean | number | string | object
  deriving DecidableEq, Repr

def domain : Value → Domain
  | .undefined => .undefined
  | .null => .null
  | .bool _ => .boolean
  | .num _ => .number
  | .str _ => .string
  | _ => .object

def strictEquals : Value → Value → Bool
  | .undefined, .undefined => true
  | .null, .null => true
  | .bool a, .bool b => a == b
  | .num a, .num b => a.equal b
  | .str a, .str b => a == b
  | a, b => identical a b

def Domain.conversions : Domain → Nat
  | .boolean | .object => 1
  | _ => 0

def Domain.isConverted : Domain → Bool
  | .boolean | .number | .string => true
  | _ => false

theorem domain_num (n : Num) : domain (.num n) = .number := rfl

theorem domain_primitive {v : Value} (h : v.domain = .object) : v.primitive.domain = .string := by
  cases v <;> simp_all [domain, primitive, isPrimitive]

def looseEquals (a b : Value) : Bool :=
  if a.domain = b.domain then strictEquals a b
  else if a.isNullish || b.isNullish then a.isNullish && b.isNullish
  else match _ : a.domain, _ : b.domain with
    | .number, .string => a.number.equal b.number
    | .string, .number => a.number.equal b.number
    | .boolean, _ => looseEquals (.num a.number) b
    | _, .boolean => looseEquals a (.num b.number)
    | .object, .number => looseEquals a.primitive b
    | .object, .string => looseEquals a.primitive b
    | .number, .object => looseEquals a b.primitive
    | .string, .object => looseEquals a b.primitive
    | _, _ => false
termination_by a.domain.conversions + b.domain.conversions
decreasing_by
  all_goals simp [*, domain_num, domain_primitive, Domain.conversions]

/-- Loose equality where an object that is to be converted can be too long to be written. -/
def equals (a b : Value) : Except Fault Bool := do
  if a.domain = .object ∧ b.domain.isConverted then let _ ← a.toPrimitive
  if b.domain = .object ∧ a.domain.isConverted then let _ ← b.toPrimitive
  return looseEquals a b

def encode (s : Spelling) : Except Fault (List Nat) :=
  match s.string? with
  | some s => .ok (Text.bytes s)
  | none => .error .notEncodable

@[simp] theorem encode_ofString (s : String) : encode s = .ok (Text.bytes s) := by
  rw [encode, Spelling.string?_ofString]

/-- The order of two numbers; only the first is tested if it is NaN. -/
def numberOrder (x y : Num) : Except Fault (Option Ordering) := do
  if ← inRange x.isNaN? then return none
  if ← inRange y.isNaN? then return none
  return x.compare? y

def compare? (a b : Value) : Except Fault (Option Ordering) := do
  match ← a.toPrimitive, ← b.toPrimitive with
  | .str s, .str t => return some (Text.compareUnits (← encode s) (← encode t))
  | p, q => numberOrder p.number q.number

theorem compare?_str (s t : Spelling) : compare? (.str s) (.str t) =
    do return some (Text.compareUnits (← encode s) (← encode t)) := rfl

def ordered (test : Ordering → Bool) (a b : Value) : Except Fault Bool := do
  return ((← compare? a b).map test).getD false

def lessThan : Value → Value → Except Fault Bool := ordered Ordering.isLT
def lessEqual : Value → Value → Except Fault Bool := ordered Ordering.isLE
def greaterThan : Value → Value → Except Fault Bool := ordered Ordering.isGT
def greaterEqual : Value → Value → Except Fault Bool := ordered Ordering.isGE

end Overload.Value
