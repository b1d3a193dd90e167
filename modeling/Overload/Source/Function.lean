import Overload.Source.Part

/-! The parts of functions, properties and classes. -/

namespace Overload.Source

def isAsync (t : Tree) : Except Fault Bool := return (← t.get "async").truthy

def functionTail (t : Tree) : Parts := do
  let params ← commaList (← t.attr "params")
  return Part.text "(" :: params ++ [Part.text ") ", .tree (← t.attr "body")]

def propertyKey (n : Node) : Parts := do
  let key ← n.attr "key"
  if (n.get "computed").truthy then
    return .text "[" :: (← operand key assignmentLevel) ++ [.text "]"]
  return [.tree key]

def accessor (kind : Tree) : Except Fault (List Part) := do
  return textIf (← kind.among ["get", "set"]) (kind.shown ++ " ")

def property (n : Node) : Parts := do
  let kind := (n.get? "kind").getD (.str "init")
  let value ← n.attr "value"
  let head ← accessor kind
  if !head.isEmpty || (n.get "method").truthy then
    let async := textIf (← isAsync value) "async "
    let star := textIf (← value.get "generator").truthy "*"
    let key ← propertyKey n
    return head ++ async ++ star ++ key ++ (← functionTail value)
  if (n.get "shorthand").truthy && !(n.get "computed").truthy then return [.tree value]
  let key ← propertyKey n
  return key ++ .text ": " :: (← operand value assignmentLevel)

def optionalId (n : Node) : List Part :=
  let id := n.get "id"
  if id.isNull then [] else [.text " ", .tree id]

def function (n : Node) : Parts := do
  let async := textIf (n.get "async").truthy "async "
  let star := textIf (n.get "generator").truthy "*"
  return async ++ .text "function" :: star ++ optionalId n ++ (← functionTail n.toTree)

/-- A body whose text would start with a brace, or that binds too loosely, needs parentheses. -/
def arrowBody (body : Tree) : Parts := do
  if (← body.kind).isText "BlockStatement" then return [.tree body]
  if (← leftmost body).is "ObjectExpression" then return parenthesized body
  operand body assignmentLevel

def arrow (n : Node) : Parts := do
  let async := textIf (n.get "async").truthy "async "
  let params ← commaList (← n.attr "params")
  let body ← arrowBody (← n.attr "body")
  return async ++ .text "(" :: params ++ .text ") => " :: body

def classParts (n : Node) : Parts := do
  let base := n.get "superClass"
  let heritage : List Part ← if base.isNull then pure []
    else pure (.text " extends " :: (← operand base memberLevel))
  return Part.text "class" :: optionalId n ++ heritage ++ [Part.text " ", .tree (← n.attr "body")]

def method (n : Node) : Parts := do
  let static := textIf (n.get "static").truthy "static "
  let value ← n.attr "value"
  let async := textIf (← isAsync value) "async "
  let head ← accessor ((n.get? "kind").getD (.str "method"))
  let star := textIf (← value.get "generator").truthy "*"
  let key ← propertyKey n
  return static ++ async ++ head ++ star ++ key ++ (← functionTail value)

def classProperty (n : Node) : Parts := do
  let static := textIf (n.get "static").truthy "static "
  let key ← propertyKey n
  let value := n.get "value"
  let init : List Part ← if value.isNull then pure []
    else pure (.text " = " :: (← operand value assignmentLevel))
  return static ++ key ++ init ++ [.text ";"]

def staticBlock (n : Node) : Parts := do
  return .text "static " :: (← bracedBody (← n.attr "body"))

end Overload.Source
