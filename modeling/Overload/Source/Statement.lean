import Overload.Source.Part

/-! The parts of statements and declarations. -/

namespace Overload.Source

def program (n : Node) : Parts := do
  let statements ← (← n.attr "body").elements
  return (statements.map Part.tree).intersperse (.text "\n")

/-- Texts that start a block or a declaration need parentheses as expressions. -/
def expressionStatement (n : Node) : Parts := do
  let expression ← n.attr "expression"
  let first ← leftmost expression
  let kinds := ["ObjectExpression", "FunctionExpression", "ClassExpression"]
  if (← first.kind.among kinds) || first.is "ObjectPattern" then
    return [.text "(", .tree expression, .text ");"]
  return [.tree expression, .text ";"]

def declarationHead (t : Tree) : Parts := do
  let kind ← t.attr "kind"
  return .tree kind :: .text " " :: (← commaList (← t.attr "declarations"))

def variableDeclaration (n : Node) : Parts := do
  return (← declarationHead n.toTree) ++ [.text ";"]

def variableDeclarator (n : Node) : Parts := do
  let id ← n.attr "id"
  let init := n.get "init"
  if init.isNull then return [.tree id]
  return .tree id :: .text " = " :: (← operand init assignmentLevel)

def forHead (t : Tree) : Parts := do
  if t.isNull then return []
  if (← t.kind).isText "VariableDeclaration" then declarationHead t else return [.tree t]

def returnStatement (n : Node) : List Part :=
  let argument := n.get "argument"
  if argument.isNull then [.text "return", .text ";"]
  else [.text "return", .text " ", .tree argument, .text ";"]

def throwStatement (n : Node) : Parts := do
  return [.text "throw ", .tree (← n.attr "argument"), .text ";"]

def consequent (body : Tree) (hasAlternate : Bool) : Parts := do
  if hasAlternate then
    if !(← body.kind).isText "BlockStatement" then return braced [body]
  return [.tree body]

def ifStatement (n : Node) : Parts := do
  let test ← n.attr "test"
  let body ← n.attr "consequent"
  let alternate := n.get "alternate"
  let middle ← consequent body (!alternate.isNull)
  return Part.text "if (" :: .tree test :: .text ") " :: middle ++
    (if alternate.isNull then [] else [Part.text " else ", .tree alternate])

def optional (t : Tree) : List Part := if t.isNull then [] else [.tree t]

def forStatement (n : Node) : Parts := do
  let init ← forHead (n.get "init")
  return Part.text "for (" :: init ++ Part.text "; " :: optional (n.get "test") ++
    Part.text "; " :: optional (n.get "update") ++ [Part.text ") ", .tree (← n.attr "body")]

def forEach (word : String) (n : Node) : Parts := do
  let await := textIf (n.get "await").truthy "await "
  let left ← forHead (← n.attr "left")
  let right ← operand (← n.attr "right") assignmentLevel
  return Part.text "for " :: await ++ Part.text "(" :: left ++ Part.text word :: right ++
    [Part.text ") ", .tree (← n.attr "body")]

def whileStatement (n : Node) : Parts := do
  return [.text "while (", .tree (← n.attr "test"), .text ") ", .tree (← n.attr "body")]

def doWhileStatement (n : Node) : Parts := do
  return [.text "do ", .tree (← n.attr "body"), .text " while (", .tree (← n.attr "test"),
    .text ");"]

def jump (keyword : String) (n : Node) : List Part :=
  let label := n.get "label"
  if label.isNull then [.text keyword, .text ";"]
  else [.text keyword, .text " ", .tree label, .text ";"]

def labeled (n : Node) : Parts := do
  return [.tree (← n.attr "label"), .text ": ", .tree (← n.attr "body")]

def catchClause (handler : Tree) : Parts := do
  if handler.isNull then return []
  let param : List Part ← if (← handler.get "param").isNull then pure []
    else pure [.text "(", .tree (← handler.attr "param"), .text ") "]
  return Part.text " catch " :: param ++ [Part.tree (← handler.attr "body")]

def tryStatement (n : Node) : Parts := do
  let block ← n.attr "block"
  let handler ← catchClause (n.get "handler")
  let finalizer := n.get "finalizer"
  return Part.text "try " :: .tree block :: handler ++
    (if finalizer.isNull then [] else [Part.text " finally ", .tree finalizer])

def switchCase (c : Tree) : Parts := do
  let head : List Part ← if (← c.get "test").isNull then pure [.text "default:\n"]
    else pure [.text "case ", .tree (← c.attr "test"), .text ":\n"]
  let statements ← (← c.attr "consequent").elements
  return head ++ statements.flatMap fun s => [Part.tree s, .text "\n"]

def switchStatement (n : Node) : Parts := do
  let discriminant ← n.attr "discriminant"
  let cases ← (← (← n.attr "cases").elements).mapM switchCase
  return .text "switch (" :: .tree discriminant :: .text (") " ++ opening ++ "\n") ::
    cases.flatten ++ [.text closing]

def withStatement (n : Node) : Parts := do
  return [.text "with (", .tree (← n.attr "object"), .text ") ", .tree (← n.attr "body")]

end Overload.Source
