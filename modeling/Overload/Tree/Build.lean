import Overload.Tree.Access

/-! Building blocks for new nodes. -/

namespace Overload

abbrev Fresh := StateM Nat

namespace Build

def node (kind : String) (fields : List (String × Tree)) : Fresh Tree :=
  fun next => (.node next (.str kind) fields, next + 1)

def identifier (name : Tree) : Fresh Tree := node "Identifier" [("name", name)]

def literal (value : Tree) : Fresh Tree := node "Literal" [("value", value)]

def call (callee : Tree) (arguments : List Tree) : Fresh Tree :=
  node "CallExpression"
    [("callee", callee), ("arguments", .list arguments), ("optional", .bool false)]

def arrow (params : List Tree) (body isAsync : Tree) : Fresh Tree :=
  node "ArrowFunctionExpression"
    [("id", .null), ("params", .list params), ("body", body),
     ("expression", .bool (!body.is "BlockStatement")), ("generator", .bool false),
     ("async", isAsync)]

def block (body : List Tree) : Fresh Tree := node "BlockStatement" [("body", .list body)]

def ret (argument : Tree) : Fresh Tree := node "ReturnStatement" [("argument", argument)]

def statement (expression : Tree) : Fresh Tree :=
  node "ExpressionStatement" [("expression", expression)]

def assign (left operator right : Tree) : Fresh Tree :=
  node "AssignmentExpression" [("operator", operator), ("left", left), ("right", right)]

def tryWith (body handler finalizer : Tree) : Fresh Tree :=
  node "TryStatement" [("block", body), ("handler", handler), ("finalizer", finalizer)]

def await (argument : Tree) : Fresh Tree := node "AwaitExpression" [("argument", argument)]

def parenthesized (expression : Tree) : Fresh Tree :=
  node "ParenthesizedExpression" [("expression", expression)]

def declarator (id init : Tree) : Fresh Tree :=
  node "VariableDeclarator" [("id", id), ("init", init)]

def declaration (kind : Tree) (declarations : List Tree) : Fresh Tree :=
  node "VariableDeclaration" [("kind", kind), ("declarations", .list declarations)]

def property (key value shorthand computed : Tree) : Fresh Tree :=
  node "Property"
    [("key", key), ("value", value), ("kind", .str "init"), ("method", .bool false),
     ("shorthand", shorthand), ("computed", computed)]

def objectPattern (properties : List Tree) : Fresh Tree :=
  node "ObjectPattern" [("properties", .list properties)]

def objectExpression (properties : List Tree) : Fresh Tree :=
  node "ObjectExpression" [("properties", .list properties)]

def spread (argument : Tree) : Fresh Tree := node "SpreadElement" [("argument", argument)]

def empty : Fresh Tree := node "EmptyStatement" []

end Build

end Overload
