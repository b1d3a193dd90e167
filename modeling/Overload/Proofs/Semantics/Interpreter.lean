import Overload.Proofs.Semantics.Term
import Overload.Tree.Fold

/-! An interpreter for lowered expressions. -/

namespace Overload.Semantics

structure Helpers where
  unary : Option String
  binary : Option String

def Helpers.has (h : Helpers) (name : String) : Bool :=
  h.unary == some name || h.binary == some name

inductive Completion where
  | normal (v : Value)
  | returned (v : Value)

inductive Mode where
  | evaluate
  | call

abbrev Meaning := Mode → Exec Completion

def valueOf (a : Exec Completion) : Exec Value := do
  match ← a with
  | .normal v => return v
  | .returned _ => throw .unsuitable

def inOrder : List (Exec Completion) → Exec Completion
  | [] => pure (.normal .undefined)
  | s :: rest => do
    match ← s with
    | .normal _ => inOrder rest
    | .returned v => return .returned v

def withFinally (body final : Exec Completion) : Exec Completion := fun m =>
  match final (body m).2 with
  | (.ok (.normal _), m') => ((body m).1, m')
  | r => r

section

variable (child : String → Option (Folded Meaning))

def single (name : String) (mode : Mode) : Exec Completion :=
  match child name with
  | some (.single _ r) => r () mode
  | _ => throw .unsuitable

def several (name : String) : Exec (List (Exec Completion)) :=
  match child name with
  | some (.items xs) => pure (xs.map fun x => x.2 () .evaluate)
  | _ => throw .unsuitable

end

variable (invoke : Invoke) (h : Helpers)

def variableName (t : Tree) : Exec String :=
  match t.is "Identifier", t.attr "name" with
  | true, .ok (.str name) => if h.has name then throw .unsuitable else pure name
  | _, _ => throw .unsuitable

def calleeName? (t : Tree) : Option String :=
  match t.is "Identifier", t.attr "name" with
  | true, .ok (.str name) => some name
  | _, _ => none

def tokenOf : Value → Exec String
  | .str s => (s.string?.map pure).getD (throw .unsuitable)
  | _ => throw .unsuitable

def callHelper (name : String) (arguments : List Value) : Exec Value :=
  if h.unary = some name then
    match arguments with
    | [token, v] => do dispatched (Dispatch.unary invoke (← tokenOf token) v)
    | _ => throw .unsuitable
  else if h.binary = some name then
    match arguments with
    | [a, token, b] => do dispatched (Dispatch.binary invoke a (← tokenOf token) b)
    | _ => throw .unsuitable
  else throw .unsuitable

def isPlainFunction (n : Node) : Bool :=
  n.is "ArrowFunctionExpression" && !(n.get "params").truthy && !(n.get "async").truthy &&
    !(n.get "generator").truthy

def nodeMeaning (n : Node) (child : String → Option (Folded Meaning)) : Meaning
  | .call =>
    if isPlainFunction n then do
      match ← single child "body" .evaluate with
      | .normal _ => return .normal .undefined
      | .returned v => return .normal v
    else throw .unsuitable
  | .evaluate =>
    match n.kind with
    | .str "Literal" => do return .normal (← constant (n.get "value"))
    | .str "Identifier" => do return .normal (← read (← variableName h n.toTree))
    | .str "AssignmentExpression" => do
      if !(n.get "operator").isText "=" then throw .unsuitable
      let name ← variableName h (n.get "left")
      let v ← valueOf (single child "right" .evaluate)
      write name v
      return .normal v
    | .str "ConditionalExpression" => do
      if ← truth (← valueOf (single child "test" .evaluate)) then
        return .normal (← valueOf (single child "consequent" .evaluate))
      else return .normal (← valueOf (single child "alternate" .evaluate))
    | .str "SequenceExpression" => do
      return .normal (← last ((← several child "expressions").map valueOf))
    | .str "CallExpression" => do
      let arguments ← several child "arguments"
      match calleeName? (n.get "callee") with
      | some name => do return .normal (← callHelper invoke h name (← arguments.mapM valueOf))
      | none => if arguments.isEmpty then single child "callee" .call else throw .unsuitable
    | .str "ExpressionStatement" => do
      return .normal (← valueOf (single child "expression" .evaluate))
    | .str "BlockStatement" => do inOrder (← several child "body")
    | .str "ReturnStatement" => do
      return .returned (← valueOf (single child "argument" .evaluate))
    | .str "TryStatement" =>
      if (n.get "handler").isNull then
        withFinally (single child "block" .evaluate) (single child "finalizer" .evaluate)
      else throw .unsuitable
    | _ => throw .unsuitable

def meaning (t : Tree) : Meaning :=
  t.fold (nodeMeaning invoke h) fun _ _ => throw .unsuitable

def evaluate (t : Tree) : Exec Value := valueOf (meaning invoke h t .evaluate)

end Overload.Semantics
