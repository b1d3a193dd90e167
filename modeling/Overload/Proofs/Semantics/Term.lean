import Overload.Compile
import Overload.Proofs.Syntax.Expr

/-!
Operator expressions over identifiers and their meaning: operators are dispatched on the values of
their operands, from left to right, and assignments change the store.
-/

namespace Overload.Semantics

structure Memory where
  store : Globals
  trace : Trace

abbrev Exec := ExceptT Fault (StateM Memory)

def read (name : String) : Exec Value := fun m =>
  match Entries.get? name m.store with
  | some v => (.ok v, m)
  | none => (.error (.raised (name ++ " is not defined")), m)

def write (name : String) (v : Value) : Exec Unit := fun m =>
  (.ok (), { m with store := Entries.set name v m.store })

def dispatched (r : Run Value) : Exec Value := fun m =>
  ((r m.trace).1, { m with trace := (r m.trace).2 })

def constant : Tree → Exec Value
  | .null => pure .null
  | .undefined => pure .undefined
  | .bool b => pure (.bool b)
  | .num n => pure (.num n)
  | .str s => pure (.str s)
  | _ => throw .unsuitable

def truth (v : Value) : Exec Bool := fun m => (v.truthy, m)

/-- An update adds to or subtracts from a variable; the value is the new one if the operator stands
before the variable. -/
inductive Term where
  | literal (value : Tree)
  | ident (name : String)
  | unary (op : UnaryOp) (argument : Term)
  | binary (op : BinaryOp) (left right : Term)
  | update (op : Syntax.UpdateOp) (isBefore : Bool) (name : String)
  | assign (op : Option BinaryOp) (name : String) (value : Term)
  | conditional (test consequent alternate : Term)
  | sequence (items : List Term)

def step : Syntax.UpdateOp → BinaryOp
  | .increment => .add
  | .decrement => .sub

variable (invoke : Invoke)

def modify (op : BinaryOp) (name : String) (operand : Exec Value) : Exec (Value × Value) := do
  let old ← read name
  let v ← operand
  let new ← dispatched (Dispatch.binary invoke old op.token v)
  write name new
  return (old, new)

def last : List (Exec Value) → Exec Value
  | [] => pure .undefined
  | [x] => x
  | x :: y :: rest => do
    let _ ← x
    last (y :: rest)

mutual

def Term.eval : Term → Exec Value
  | .literal t => constant t
  | .ident name => read name
  | .unary op e => do dispatched (Dispatch.unary invoke op.token (← e.eval))
  | .binary op l r => do
    let a ← l.eval
    let b ← r.eval
    dispatched (Dispatch.binary invoke a op.token b)
  | .update op isBefore name => do
    let r ← modify invoke (step op) name (pure (.num (.int 1)))
    return if isBefore then r.2 else r.1
  | .assign none name e => do
    let v ← e.eval
    write name v
    return v
  | .assign (some op) name e => do return (← modify invoke op name e.eval).2
  | .conditional c a b => do if ← truth (← c.eval) then a.eval else b.eval
  | .sequence es => last (evalAll es)
termination_by structural e => e

def evalAll : List Term → List (Exec Value)
  | [] => []
  | e :: es => e.eval :: evalAll es
termination_by structural es => es

end

open Syntax (OfKind Field)

def Variable (name : String) : Tree → Prop := OfKind .identifier (Field "name" (· = .str name))

mutual

/-- The tree is the node that stands for the expression, whatever other fields it has. -/
def Depicts : Term → Tree → Prop
  | .literal v => OfKind .literal (Field "value" (· = v))
  | .ident name => Variable name
  | .unary op e => OfKind .unaryExpression fun n =>
    Field "operator" (· = .str op.token) n ∧ Field "argument" (Depicts e) n
  | .binary op l r => fun t => ∃ kind ∈ [Kind.binaryExpression, .logicalExpression],
    OfKind kind (fun n => Field "operator" (· = .str op.token) n ∧ Field "left" (Depicts l) n ∧
      Field "right" (Depicts r) n) t
  | .update op isBefore name => OfKind .updateExpression fun n =>
    Field "operator" (· = .str op.token) n ∧ Field "prefix" (·.truthy = isBefore) n ∧
      Field "argument" (Variable name) n
  | .assign op name e => OfKind .assignmentExpression fun n =>
    Field "operator" (· = .str (Syntax.assignToken op)) n ∧ Field "left" (Variable name) n ∧
      Field "right" (Depicts e) n
  | .conditional c a b => OfKind .conditionalExpression fun n =>
    Field "test" (Depicts c) n ∧ Field "consequent" (Depicts a) n ∧ Field "alternate" (Depicts b) n
  | .sequence es => OfKind .sequenceExpression
    (Field "expressions" fun t => ∃ ts, t = .list ts ∧ DepictsAll es ts)
termination_by structural e => e

def DepictsAll : List Term → List Tree → Prop
  | [] => fun ts => ts = []
  | e :: es => fun ts => ∃ t rest, ts = t :: rest ∧ Depicts e t ∧ DepictsAll es rest
termination_by structural es => es

end

end Overload.Semantics
