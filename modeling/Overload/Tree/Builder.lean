import Overload.Tree.Build

/-! Building blocks by name, with their arguments given by position or by name. -/

namespace Overload

inductive Builder where
  | identifier | literal | callExpression | arrowFunction | blockStatement | returnStatement
  | expressionStatement | assignmentExpression | tryStatement | awaitExpression
  | parenthesizedExpression | variableDeclarator | variableDeclaration | objectProperty
  | objectPattern | objectExpression | spreadElement | emptyStatement
  deriving DecidableEq, Repr

structure Parameter where
  name : String
  fallback : Option Tree

namespace Builder

def required (name : String) : Parameter := ⟨name, none⟩

def optional (name : String) : Parameter := ⟨name, some .null⟩

def parameters : Builder → List Parameter
  | .identifier => [required "name"]
  | .literal => [required "value"]
  | .callExpression => [required "callee", required "arguments"]
  | .arrowFunction => [required "params", required "body"]
  | .blockStatement => []
  | .returnStatement => [optional "argument"]
  | .expressionStatement => [required "expression"]
  | .assignmentExpression => [required "left", required "operator", required "right"]
  | .tryStatement => [required "block", optional "handler", optional "finalizer"]
  | .awaitExpression => [required "argument"]
  | .parenthesizedExpression => [required "expression"]
  | .variableDeclarator => [required "id", optional "init"]
  | .variableDeclaration => [required "kind", required "declarations"]
  | .objectProperty => [required "key", required "value"]
  | .objectPattern => [required "properties"]
  | .objectExpression => [required "properties"]
  | .spreadElement => [required "argument"]
  | .emptyStatement => []

def flags : Builder → List String
  | .arrowFunction => ["is_async"]
  | .objectProperty => ["shorthand", "computed"]
  | _ => []

def isVariadic : Builder → Bool
  | .blockStatement => true
  | _ => false

abbrev Arguments := List (String × Tree)

def bindPositions (b : Builder) (positional : List Tree) : Except Fault Arguments :=
  if b.isVariadic || positional.length ≤ b.parameters.length then
    .ok ((b.parameters.map (·.name)).zip positional)
  else .error .unsuitable

def bindName (b : Builder) (bound : Arguments) (named : String × Tree) : Except Fault Arguments :=
  if ((b.parameters.map (·.name)) ++ b.flags).contains named.1 && !Entries.has named.1 bound then
    .ok (bound ++ [named])
  else .error .unsuitable

def bind (b : Builder) (positional : List Tree) (named : Arguments) : Except Fault Arguments := do
  let bound ← named.foldlM (bindName b) (← bindPositions b positional)
  if b.parameters.any fun p => p.fallback.isNone && !Entries.has p.name bound then
    .error .unsuitable
  else .ok bound

def apply (b : Builder) (positional : List Tree) (named : Arguments) :
    Except Fault (Fresh Tree) := do
  let bound ← b.bind positional named
  let arg (name : String) : Tree := (Entries.get? name bound).getD .null
  let flag (name : String) : Tree := (Entries.get? name bound).getD (.bool false)
  match b with
  | .identifier => return Build.identifier (arg "name")
  | .literal => return Build.literal (arg "value")
  | .callExpression => return Build.call (arg "callee") (← (arg "arguments").elements)
  | .arrowFunction =>
    let params ← (arg "params").elements
    let _ ← (arg "body").kind
    return Build.arrow params (arg "body") (flag "is_async")
  | .blockStatement => return Build.block positional
  | .returnStatement => return Build.ret (arg "argument")
  | .expressionStatement => return Build.statement (arg "expression")
  | .assignmentExpression => return Build.assign (arg "left") (arg "operator") (arg "right")
  | .tryStatement => return Build.tryWith (arg "block") (arg "handler") (arg "finalizer")
  | .awaitExpression => return Build.await (arg "argument")
  | .parenthesizedExpression => return Build.parenthesized (arg "expression")
  | .variableDeclarator => return Build.declarator (arg "id") (arg "init")
  | .variableDeclaration =>
    return Build.declaration (arg "kind") (← (arg "declarations").elements)
  | .objectProperty =>
    return Build.property (arg "key") (arg "value") (flag "shorthand") (flag "computed")
  | .objectPattern => return Build.objectPattern (← (arg "properties").elements)
  | .objectExpression => return Build.objectExpression (← (arg "properties").elements)
  | .spreadElement => return Build.spread (arg "argument")
  | .emptyStatement => return Build.empty

end Builder

end Overload
