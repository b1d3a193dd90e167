import Overload.Number.Basic
import Overload.Source.Escape
import Overload.Source.Part
import Overload.Text.Letter

/-! The parts of names, literals, operators, calls and members. -/

namespace Overload.Source

def literalValue : Tree → Parts
  | .null => .ok [.text "null"]
  | .bool b => .ok [.text (if b then "true" else "false")]
  | .str s => .ok [.text "\"", .text (escape s), .text "\""]
  | .num n => .ok [.text n.text]
  | t => .error (.unknownLiteral t)

def literal (n : Node) : Parts := do
  let regex := n.get "regex"
  if !regex.isNull then
    let pattern ← regex.entry "pattern"
    let flags ← regex.entry "flags"
    return [.text ("/" ++ pattern.shown ++ "/" ++ flags.shown)]
  let bigint := n.get "bigint"
  if !bigint.isNull then return [.text (bigint.shown ++ "n")]
  literalValue (n.get "value")

def metaProperty (n : Node) : Parts := do
  return [.tree (← n.attr "meta"), .text ".", .tree (← n.attr "property")]

def templatePieces (expressions : Tree) : List Tree → Nat → Parts
  | [], _ => .ok []
  | quasi :: rest, i => do
    let raw ← (← quasi.attr "value").entry "raw"
    let hole ← if i < (← expressions.length) then do
        pure [.text ("$" ++ opening), .tree (← expressions.index i), .text closing]
      else pure []
    return .tree raw :: hole ++ (← templatePieces expressions rest (i + 1))

def templateLiteral (n : Node) : Parts := do
  let quasis ← n.attr "quasis"
  let expressions ← n.attr "expressions"
  let pieces ← templatePieces expressions (← quasis.elements) 0
  return .text "`" :: pieces ++ [.text "`"]

def taggedTemplate (n : Node) : Parts := do
  return (← operand (← n.attr "tag") memberLevel) ++ [.tree (← n.attr "quasi")]

def array (n : Node) : Parts := do
  return .text "[" :: (← commaList (← n.attr "elements")) ++ [.text "]"]

def object (n : Node) : Parts := do
  let properties ← n.attr "properties"
  if !properties.truthy then return [.text (opening ++ closing)]
  return .text (opening ++ " ") :: (← commaList properties) ++ [.text (" " ++ closing)]

def spread (n : Node) : Parts := do
  return .text "..." :: (← operand (← n.attr "argument") assignmentLevel)

def assignmentPattern (n : Node) : Parts := do
  let left ← n.attr "left"
  return .tree left :: .text " = " :: (← operand (← n.attr "right") assignmentLevel)

def signsMeet (op : String) (argument : Tree) : Except Fault Bool := do
  if op != "+" && op != "-" then return false
  let kind ← argument.kind
  if !(← kind.among ["UnaryExpression", "UpdateExpression"]) then return false
  let first ← (← argument.attr "operator").index 0
  if !first.isText op then return false
  if kind.isText "UnaryExpression" then return true
  return (← argument.attr "prefix").truthy

def unary (n : Node) : Parts := do
  let op ← n.attr "operator"
  let argument ← n.attr "argument"
  match op with
  | .str s =>
    let gap ← if Text.allLetters s then pure true else signsMeet s argument
    return .text s :: textIf gap " " ++ (← operand argument unaryLevel)
  | _ => throw .noAttribute

def update (n : Node) : Parts := do
  if (← n.attr "prefix").truthy then
    let op ← n.attr "operator"
    return .tree op :: (← operand (← n.attr "argument") unaryLevel)
  let argument ← operand (← n.attr "argument") memberLevel
  return argument ++ [.tree (← n.attr "operator")]

def mixesNullish (op : String) (child : Tree) : Except Fault Bool := do
  if !(← child.kind).isText "LogicalExpression" then return false
  return (op == "??") != (← child.attr "operator").isText "??"

def isLogical (op : String) : Bool := op == "??" || op == "&&" || op == "||"

def leastLevel (op : String) (level : Nat) (child : Tree) : Except Fault Nat := do
  if isLogical op then
    if ← mixesNullish op child then return primaryLevel
  return level

def binary (n : Node) : Parts := do
  let op ← n.attr "operator"
  let level ← operatorLevel op
  let left ← n.attr "left"
  let right ← n.attr "right"
  let text := op.shown
  let least := if text = "**" then (level + 2, level) else (level, level + 1)
  let leftLeast ← leastLevel text least.1 left
  let rightLeast ← leastLevel text least.2 right
  let leftParts ← operand left leftLeast
  return leftParts ++ .text (" " ++ text ++ " ") :: (← operand right rightLeast)

def assignment (n : Node) : Parts := do
  let left ← n.attr "left"
  let op ← n.attr "operator"
  return .tree left :: .text (" " ++ op.shown ++ " ") ::
    (← operand (← n.attr "right") assignmentLevel)

def conditional (n : Node) : Parts := do
  let test ← operand (← n.attr "test") (conditionalLevel + 1)
  let consequent ← operand (← n.attr "consequent") assignmentLevel
  let alternate ← operand (← n.attr "alternate") assignmentLevel
  return test ++ .text " ? " :: consequent ++ .text " : " :: alternate

def sequence (n : Node) : Parts := do commaList (← n.attr "expressions")

def await (n : Node) : Parts := do
  return .text "await " :: (← operand (← n.attr "argument") unaryLevel)

def yield (n : Node) : Parts := do
  let head : Part := .text (if (n.get "delegate").truthy then "yield*" else "yield")
  let argument := n.get "argument"
  if argument.isNull then return [head]
  return head :: .text " " :: (← operand argument assignmentLevel)

def isNumberLiteral (t : Tree) : Except Fault Bool := do
  if !(← t.kind).isText "Literal" then return false
  match ← t.get "value" with
  | .num _ => return true
  | _ => return false

def objectOperand (t : Tree) : Parts := do
  if ← isNumberLiteral t then return parenthesized t
  operand t memberLevel

def arguments (n : Node) : Parts := do
  return .text "(" :: (← commaList (← n.attr "arguments")) ++ [.text ")"]

def call (n : Node) : Parts := do
  let callee ← objectOperand (← n.attr "callee")
  return callee ++ textIf (n.get "optional").truthy "?." ++ (← arguments n)

def new (n : Node) : Parts := do
  let callee ← n.attr "callee"
  let wrapped ← if ← (← callee.kind).among ["CallExpression", "ChainExpression"] then pure true
    else pure (decide ((← precedence callee) < memberLevel))
  let head := if wrapped then parenthesized callee else [.tree callee]
  return .text "new " :: head ++ (← arguments n)

def member (n : Node) : Parts := do
  let base ← objectOperand (← n.attr "object")
  let optional := (n.get "optional").truthy
  if (n.get "computed").truthy then
    let property ← operand (← n.attr "property") sequenceLevel
    return base ++ Part.text (if optional then "?.[" else "[") :: property ++ [.text "]"]
  return base ++ [Part.text (if optional then "?." else "."), .tree (← n.attr "property")]

def importExpression (n : Node) : Parts := do
  return .text "import(" :: (← operand (← n.attr "source") assignmentLevel) ++ [.text ")"]

end Overload.Source
