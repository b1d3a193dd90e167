import Overload.Action

/-!
Dispatch: an operator asks its operands for members before it falls back on its built-in action.
-/

namespace Overload

def Value.label : Value → String
  | .undefined => "Undefined"
  | .null => "NoneType"
  | .bool _ => "bool"
  | .num (.int _) => "int"
  | .num (.float _) => "float"
  | .str _ => "str"
  | .list _ _ => "list"
  | .tuple _ _ => "tuple"
  | .dict _ _ => "dict"
  | .function _ name isPlain _ =>
    if isPlain then "function" else if name.isNone then "partial"
    else "builtin_function_or_method"
  | .type c => "class " ++ c.name
  | .object _ c _ _ => c.name

structure Call where
  label : String
  member : String
  arguments : List Value

structure Trace where
  calls : List Call
  next : Nat

abbrev Run := ExceptT Fault (StateM Trace)

abbrev Answer := Option Value

abbrev Invoke := Value → List Value → Run Answer

inductive Outcome where
  | applied (v : Value)
  | declined
  | failed (f : Fault)
  deriving Inhabited

namespace Dispatch

/-- The implementation of a member: a callable dictionary entry, or a callable attribute that is
not an unbound function of a class. -/
def lookup (operand : Value) (member : String) : Option Callee :=
  match (operand.entries?.bind (Value.valueAt? (.str member))).filter Value.isCallable with
  | some f => some ⟨f, [operand]⟩
  | none =>
    match operand.attribute? member with
    | some callee =>
      if !callee.function.isCallable then none
      else match operand, callee with
        | .type _, ⟨.function _ _ true _, []⟩ => none
        | _, _ => some callee
    | none => none

def provides (operand : Value) (member : String) : Bool :=
  (lookup operand member).isSome ||
    (operand.attribute? member).isNone && operand.ownNames.contains member &&
      !Value.dataNames.contains member

variable (invoke : Invoke)

def runCallee (callee : Callee) (arguments : List Value) : Run Answer :=
  invoke callee.function (callee.bound ++ arguments)

def attempt (callee : Option Callee) (arguments : List Value) : Run Outcome :=
  match callee with
  | none => pure .declined
  | some c => fun trace =>
    match runCallee invoke c arguments trace with
    | (.ok (some v), trace') => (.ok (.applied v), trace')
    | (.ok none, trace') => (.ok .declined, trace')
    | (.error f, trace') => (.ok (.failed f), trace')

def actionValue (m : Member) : Value :=
  .function 0 (some (Action.memberName m)) true (.action m)

def familyHook (operand : Value) (m : Member) (other : Value) : Run Outcome :=
  match m.family? with
  | none => pure .declined
  | some .comparison => do
    match ← attempt invoke (lookup operand Family.comparison.member) [other] with
    | .applied v => return .applied (.bool (← liftExcept (Action.compareResult m.op v)))
    | o => return o
  | some f => attempt invoke (lookup operand f.member) [other, actionValue m]
where
  liftExcept {α : Type} (r : Except Fault α) : Run α := fun trace => (r, trace)

def candidates (o : BinaryOp) (left right : Value) : List (Run Outcome) :=
  [attempt invoke (lookup left o.direct.name) [right],
   attempt invoke (lookup right o.swapped.name) [left],
   familyHook invoke left o.direct right,
   familyHook invoke right o.swapped left,
   fun trace => ((Action.binary o left right).map .applied, trace)]

def chain (left : Value) (token : String) (right : Value) : Except Fault (List (Run Outcome)) :=
  match BinaryOp.ofToken? token with
  | none => .error (.unsupportedBinary token)
  | some o => .ok (candidates invoke o left right)

def firstOf : List (Run Outcome) → Run Value
  | [] => throw .exhausted
  | c :: rest => do
    match ← c with
    | .applied v => return v
    | .failed f => throw f
    | .declined => firstOf rest

theorem firstOf_declined {c : Run Outcome} {rest : List (Run Outcome)} {trace trace' : Trace}
    (h : c trace = (.ok .declined, trace')) : firstOf (c :: rest) trace = firstOf rest trace' := by
  simp [firstOf, bind, ExceptT.bind, ExceptT.mk, ExceptT.bindCont, StateT.bind, h]

theorem attempt_none (arguments : List Value) (trace : Trace) :
    attempt invoke none arguments trace = (.ok .declined, trace) := rfl

def binary (left : Value) (token : String) (right : Value) : Run Value :=
  match chain invoke left token right with
  | .error f => throw f
  | .ok cs => firstOf cs

/-- A unary member that is absent, declines or fails leaves the work to the action. -/
def unary (token : String) (operand : Value) : Run Value :=
  match UnaryOp.ofToken? token with
  | none => throw (.unsupportedUnary token)
  | some o => do
    match ← attempt invoke (lookup operand o.member) [] with
    | .applied v => return v
    | _ => fun trace => (Action.unary o operand, trace)

end Dispatch

end Overload
