import Overload.Source.Expression
import Overload.Source.Function
import Overload.Source.Statement

/-!
Printing: a node is expanded into parts, and the parts that are trees are expanded in turn, the
first one first.
-/

namespace Overload.Source

def unprintable (kind : Tree) : Fault :=
  match kind with
  | .str s => if moduleKinds.contains s then .notLowered kind else .unknownKind kind
  | _ => .unknownKind kind

def expandKind (n : Node) : Kind → Parts
  | .identifier => do return [.tree (← n.attr "name")]
  | .privateIdentifier => do return [.text "#", .tree (← n.attr "name")]
  | .literal => literal n
  | .thisExpression => .ok [.text "this"]
  | .super => .ok [.text "super"]
  | .metaProperty => metaProperty n
  | .templateLiteral => templateLiteral n
  | .taggedTemplateExpression => taggedTemplate n
  | .arrayExpression | .arrayPattern => array n
  | .objectExpression | .objectPattern => object n
  | .property => property n
  | .spreadElement | .restElement => spread n
  | .assignmentPattern => assignmentPattern n
  | .unaryExpression => unary n
  | .updateExpression => update n
  | .binaryExpression | .logicalExpression => binary n
  | .assignmentExpression => assignment n
  | .conditionalExpression => conditional n
  | .sequenceExpression => sequence n
  | .awaitExpression => await n
  | .yieldExpression => yield n
  | .callExpression => call n
  | .newExpression => new n
  | .memberExpression => member n
  | .chainExpression => do return [.tree (← n.attr "expression")]
  | .parenthesizedExpression => do return parenthesized (← n.attr "expression")
  | .importExpression => importExpression n
  | .functionExpression | .functionDeclaration => function n
  | .arrowFunctionExpression => arrow n
  | .classExpression | .classDeclaration => classParts n
  | .classBody | .blockStatement => do bracedBody (← n.attr "body")
  | .methodDefinition => method n
  | .propertyDefinition => classProperty n
  | .staticBlock => staticBlock n
  | .program => program n
  | .expressionStatement => expressionStatement n
  | .emptyStatement => .ok [.text ";"]
  | .variableDeclaration => variableDeclaration n
  | .variableDeclarator => variableDeclarator n
  | .returnStatement => .ok (returnStatement n)
  | .throwStatement => throwStatement n
  | .ifStatement => ifStatement n
  | .forStatement => forStatement n
  | .forInStatement => forEach " in " n
  | .forOfStatement => forEach " of " n
  | .whileStatement => whileStatement n
  | .doWhileStatement => doWhileStatement n
  | .breakStatement => .ok (jump "break" n)
  | .continueStatement => .ok (jump "continue" n)
  | .labeledStatement => labeled n
  | .tryStatement => tryStatement n
  | .switchStatement => switchStatement n
  | .withStatement => withStatement n
  | .debuggerStatement => .ok [.text "debugger;"]
  | .switchCase | .catchClause | .templateElement | .importDeclaration | .importSpecifier
  | .importDefaultSpecifier | .importNamespaceSpecifier | .exportNamedDeclaration
  | .exportSpecifier | .exportDefaultDeclaration | .exportAllDeclaration =>
    .error (unprintable n.kind)

def expand (n : Node) : Parts := do
  let _ ← n.kind.key
  match n.kind? with
  | some k => expandKind n k
  | none => throw (unprintable n.kind)

/-- Works off a list of parts, `fuel` of them at most, behind the text printed so far. -/
def run : Nat → List Part → String → Except Fault String
  | _, [], done => .ok done
  | 0, _ :: _, _ => .error .exhausted
  | fuel + 1, .text s :: rest, done => run fuel rest (done ++ s)
  | fuel + 1, .tree (.str s) :: rest, done => run fuel rest (done ++ s)
  | fuel + 1, .tree t :: rest, done =>
    match t.node? with
    | none => .error .noAttribute
    | some n =>
      match expand n with
      | .error e => .error e
      | .ok parts => run fuel (parts ++ rest) done

def partBound (t : Tree) : Nat := 64 * t.size + 64

def print (t : Tree) : Except Fault String := run (partBound t) [.tree t] ""

end Overload.Source
