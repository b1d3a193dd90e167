import Overload.Number.Bits
import Overload.Text.Word
import Overload.Value.Compare

/-! The built-in action of every operator. -/

namespace Overload.Action

open Value

def ofNum (r : Option Num) : Except Fault Value := (inRange r).map .num

def neg (a : Value) : Value := .num a.number.neg

def not (a : Value) : Except Fault Value := return .bool (!(← a.truthy))

def invert (a : Value) : Value := .int (-1 - a.int32)

def isText : Value → Bool
  | .str _ => true
  | _ => false

def add (a b : Value) : Except Fault Value := do
  let p ← a.toPrimitive
  let q ← b.toPrimitive
  if isText p || isText q then return .str ((← p.write) ++ (← q.write))
  else ofNum (p.number.add? q.number)

/-- Arithmetic on the numbers that the operands stand for. -/
def arithmetic (f : Num → Num → Option Num) (a b : Value) : Except Fault Value := do
  let p ← a.toPrimitive
  let q ← b.toPrimitive
  ofNum (f p.number q.number)

@[simp] theorem arithmetic_num (f : Num → Num → Option Num) (x y : Num) :
    arithmetic f (.num x) (.num y) = ofNum (f x y) := rfl

def sub : Value → Value → Except Fault Value := arithmetic Num.sub?
def mul : Value → Value → Except Fault Value := arithmetic Num.mul?
def div : Value → Value → Except Fault Value := arithmetic Num.div?
def mod : Value → Value → Except Fault Value := arithmetic Num.mod?
def pow : Value → Value → Except Fault Value := arithmetic Num.pow?

def shiftAmount (b : Value) : Nat := (Number.joinBits Bool.and b.uint32 31).toNat

def shiftLeft (a b : Value) : Value := .int (Num.wrap32 (a.int32 * Int.pow 2 (shiftAmount b)))
def shiftRight (a b : Value) : Value := .int (a.int32 / Int.pow 2 (shiftAmount b))
def shiftRightUnsigned (a b : Value) : Value := .int (a.uint32 / Int.pow 2 (shiftAmount b))

def bitwise (f : Bool → Bool → Bool) (a b : Value) : Value :=
  .int (Number.joinBits f a.int32 b.int32)

def bitAnd : Value → Value → Value := bitwise Bool.and
def bitOr : Value → Value → Value := bitwise Bool.or
def bitXor : Value → Value → Value := bitwise Bool.xor

def onWords (f : Value → Value → Value) (a b : Value) : Except Fault Value := do
  return f (← a.toPrimitive) (← b.toPrimitive)

def isIndex (name : String) (length : Nat) : Except Fault Bool :=
  let cs := name.toList
  if cs.isEmpty || !cs.all Text.isDigit then .ok false
  else if Num.digitLimit < cs.length then .error .tooLong
  else match Text.digitsValue? cs with
    | none => .error .notNumeral
    | some n => .ok (toString n == name && n < length)

def hasItem (name : Spelling) (length : Nat) : Except Fault Bool :=
  match name.string? with
  | some s => if s = "length" then .ok true else isIndex s length
  | none => .ok false

/-- Whether an object has a property: an entry of a dictionary, an index of a list, an attribute
of anything else. -/
def hasProperty (key object : Value) : Except Fault Bool := do
  let name ← key.write
  if object.isPrimitive then throw (.notSearchable name.shown (← object.write).shown)
  match object.entries? with
  | some es =>
    if (valueAt? (.str name) es).isSome then return true
    else if key.isKey then return (valueAt? key es).isSome
    else throw .unsuitable
  | none =>
    match object with
    | .list _ xs => hasItem name xs.length
    | .tuple _ xs => hasItem name xs.length
    | _ => return name.string?.any fun s => Text.isWord s && object.hasAttribute s

def classOf : Value → Class
  | .list _ _ => .builtin "list"
  | .tuple _ _ => .builtin "tuple"
  | .dict _ _ => .builtin "dict"
  | .object _ c _ _ => c
  | _ => .builtin "object"

def instanceOf (v cls : Value) : Except Fault Bool :=
  if !cls.isCallable then .error .notCallable
  else match cls with
    | .type c => .ok (!v.isPrimitive && (classOf v).derives c)
    | _ => .ok false

def and (a b : Value) : Except Fault Value := return if ← a.truthy then b else a
def or (a b : Value) : Except Fault Value := return if ← a.truthy then a else b
def nullish (a b : Value) : Value := if a.isNullish then b else a

def unary (o : UnaryOp) (a : Value) : Except Fault Value :=
  match o with
  | .pos => do return .num (← a.toPrimitive).number
  | .neg => do return neg (← a.toPrimitive)
  | .not => not a
  | .invert => do return invert (← a.toPrimitive)
  | .typeof => .ok (.str a.typeof)

def binary (o : BinaryOp) (a b : Value) : Except Fault Value :=
  match o with
  | .add => add a b
  | .sub => sub a b
  | .mul => mul a b
  | .div => div a b
  | .mod => mod a b
  | .pow => pow a b
  | .lshift => onWords shiftLeft a b
  | .rshift => onWords shiftRight a b
  | .urshift => onWords shiftRightUnsigned a b
  | .xor => onWords bitXor a b
  | .bitAnd => onWords bitAnd a b
  | .bitOr => onWords bitOr a b
  | .eq => (equals a b).map .bool
  | .ne => (equals a b).map fun e => .bool !e
  | .seq => .ok (.bool (strictEquals a b))
  | .sne => .ok (.bool (!strictEquals a b))
  | .lt => (lessThan a b).map .bool
  | .le => (lessEqual a b).map .bool
  | .gt => (greaterThan a b).map .bool
  | .ge => (greaterEqual a b).map .bool
  | .isIn => (hasProperty a b).map .bool
  | .instanceOf => (instanceOf a b).map .bool
  | .and => and a b
  | .or => or a b
  | .nullish => .ok (nullish a b)

def ofMember (m : Member) (a b : Value) : Except Fault Value :=
  if m.reversed then binary m.op b a else binary m.op a b

def opName : BinaryOp → String
  | .pow => "pow_"
  | .xor => "bit_xor"
  | .bitAnd => "bit_and"
  | .bitOr => "bit_or"
  | .eq => "loose_equals"
  | .ne => "<lambda>"
  | .seq => "strict_equals"
  | .sne => "<lambda>"
  | .lt => "less_than"
  | .le => "less_equal"
  | .gt => "greater_than"
  | .ge => "greater_equal"
  | .isIn => "has_property"
  | .instanceOf => "instance_of"
  | .and => "logical_and"
  | .or => "logical_or"
  | o => o.stem

def memberName (m : Member) : String := (if m.reversed then "reversed_" else "") ++ opName m.op

def compareResult (o : BinaryOp) (v : Value) : Except Fault Bool :=
  let order := v.number?.bind fun n => n.compare? (.int 0)
  let test (f : Ordering → Bool) : Except Fault Bool :=
    if v.number?.isSome then .ok ((order.map f).getD false) else .error .unsuitable
  match o with
  | .eq => .ok (order == some .eq)
  | .ne => .ok (order != some .eq)
  | .lt => test Ordering.isLT
  | .le => test Ordering.isLE
  | .gt => test Ordering.isGT
  | .ge => test Ordering.isGE
  | _ => .error .noEntry

/-! Actions by the names of members; a name without one is no entry. -/

def unaryNamed (member : String) (a : Value) : Except Fault Value :=
  match UnaryOp.ofMember? member with
  | some o => unary o a
  | none => .error .noEntry

def binaryNamed (member : String) (a b : Value) : Except Fault Value :=
  match Member.ofName? member with
  | some m => ofMember m a b
  | none => .error .noEntry

def compareNamed (member : String) (v : Value) : Except Fault Bool :=
  match Member.ofName? member with
  | some ⟨o, false⟩ => compareResult o v
  | _ => .error .noEntry

end Overload.Action
