import Overload.Tree.Access

/-! The kinds of node that the grammar knows, with the fields of each that may hold children. -/

namespace Overload

inductive Kind where
  | program | expressionStatement | blockStatement | staticBlock | emptyStatement
  | debuggerStatement | withStatement | returnStatement | labeledStatement | breakStatement
  | continueStatement | ifStatement | switchStatement | switchCase | throwStatement
  | tryStatement | catchClause | whileStatement | doWhileStatement | forStatement
  | forInStatement | forOfStatement | functionDeclaration | variableDeclaration
  | variableDeclarator | identifier | privateIdentifier | literal | thisExpression | super
  | arrayExpression | objectExpression | property | functionExpression | arrowFunctionExpression
  | unaryExpression | updateExpression | binaryExpression | assignmentExpression
  | logicalExpression | memberExpression | conditionalExpression | callExpression | newExpression
  | sequenceExpression | spreadElement | yieldExpression | awaitExpression | templateLiteral
  | templateElement | taggedTemplateExpression | objectPattern | arrayPattern | restElement
  | assignmentPattern | classBody | methodDefinition | propertyDefinition | classDeclaration
  | classExpression | metaProperty | importDeclaration | importSpecifier | importDefaultSpecifier
  | importNamespaceSpecifier | importExpression | exportNamedDeclaration | exportSpecifier
  | exportDefaultDeclaration | exportAllDeclaration | chainExpression | parenthesizedExpression
  deriving DecidableEq, Repr, Inhabited

namespace Kind

def name : Kind → String
  | .program => "Program"
  | .expressionStatement => "ExpressionStatement"
  | .blockStatement => "BlockStatement"
  | .staticBlock => "StaticBlock"
  | .emptyStatement => "EmptyStatement"
  | .debuggerStatement => "DebuggerStatement"
  | .withStatement => "WithStatement"
  | .returnStatement => "ReturnStatement"
  | .labeledStatement => "LabeledStatement"
  | .breakStatement => "BreakStatement"
  | .continueStatement => "ContinueStatement"
  | .ifStatement => "IfStatement"
  | .switchStatement => "SwitchStatement"
  | .switchCase => "SwitchCase"
  | .throwStatement => "ThrowStatement"
  | .tryStatement => "TryStatement"
  | .catchClause => "CatchClause"
  | .whileStatement => "WhileStatement"
  | .doWhileStatement => "DoWhileStatement"
  | .forStatement => "ForStatement"
  | .forInStatement => "ForInStatement"
  | .forOfStatement => "ForOfStatement"
  | .functionDeclaration => "FunctionDeclaration"
  | .variableDeclaration => "VariableDeclaration"
  | .variableDeclarator => "VariableDeclarator"
  | .identifier => "Identifier"
  | .privateIdentifier => "PrivateIdentifier"
  | .literal => "Literal"
  | .thisExpression => "ThisExpression"
  | .super => "Super"
  | .arrayExpression => "ArrayExpression"
  | .objectExpression => "ObjectExpression"
  | .property => "Property"
  | .functionExpression => "FunctionExpression"
  | .arrowFunctionExpression => "ArrowFunctionExpression"
  | .unaryExpression => "UnaryExpression"
  | .updateExpression => "UpdateExpression"
  | .binaryExpression => "BinaryExpression"
  | .assignmentExpression => "AssignmentExpression"
  | .logicalExpression => "LogicalExpression"
  | .memberExpression => "MemberExpression"
  | .conditionalExpression => "ConditionalExpression"
  | .callExpression => "CallExpression"
  | .newExpression => "NewExpression"
  | .sequenceExpression => "SequenceExpression"
  | .spreadElement => "SpreadElement"
  | .yieldExpression => "YieldExpression"
  | .awaitExpression => "AwaitExpression"
  | .templateLiteral => "TemplateLiteral"
  | .templateElement => "TemplateElement"
  | .taggedTemplateExpression => "TaggedTemplateExpression"
  | .objectPattern => "ObjectPattern"
  | .arrayPattern => "ArrayPattern"
  | .restElement => "RestElement"
  | .assignmentPattern => "AssignmentPattern"
  | .classBody => "ClassBody"
  | .methodDefinition => "MethodDefinition"
  | .propertyDefinition => "PropertyDefinition"
  | .classDeclaration => "ClassDeclaration"
  | .classExpression => "ClassExpression"
  | .metaProperty => "MetaProperty"
  | .importDeclaration => "ImportDeclaration"
  | .importSpecifier => "ImportSpecifier"
  | .importDefaultSpecifier => "ImportDefaultSpecifier"
  | .importNamespaceSpecifier => "ImportNamespaceSpecifier"
  | .importExpression => "ImportExpression"
  | .exportNamedDeclaration => "ExportNamedDeclaration"
  | .exportSpecifier => "ExportSpecifier"
  | .exportDefaultDeclaration => "ExportDefaultDeclaration"
  | .exportAllDeclaration => "ExportAllDeclaration"
  | .chainExpression => "ChainExpression"
  | .parenthesizedExpression => "ParenthesizedExpression"

def all : List Kind :=
  [.program, .expressionStatement, .blockStatement, .staticBlock, .emptyStatement,
   .debuggerStatement, .withStatement, .returnStatement, .labeledStatement, .breakStatement,
   .continueStatement, .ifStatement, .switchStatement, .switchCase, .throwStatement,
   .tryStatement, .catchClause, .whileStatement, .doWhileStatement, .forStatement,
   .forInStatement, .forOfStatement, .functionDeclaration, .variableDeclaration,
   .variableDeclarator, .identifier, .privateIdentifier, .literal, .thisExpression, .super,
   .arrayExpression, .objectExpression, .property, .functionExpression, .arrowFunctionExpression,
   .unaryExpression, .updateExpression, .binaryExpression, .assignmentExpression,
   .logicalExpression, .memberExpression, .conditionalExpression, .callExpression,
   .newExpression, .sequenceExpression, .spreadElement, .yieldExpression, .awaitExpression,
   .templateLiteral, .templateElement, .taggedTemplateExpression, .objectPattern, .arrayPattern,
   .restElement, .assignmentPattern, .classBody, .methodDefinition, .propertyDefinition,
   .classDeclaration, .classExpression, .metaProperty, .importDeclaration, .importSpecifier,
   .importDefaultSpecifier, .importNamespaceSpecifier, .importExpression,
   .exportNamedDeclaration, .exportSpecifier, .exportDefaultDeclaration, .exportAllDeclaration,
   .chainExpression, .parenthesizedExpression]

def ofName? (s : String) : Option Kind := all.find? fun k => k.name == s

def children : Kind → List String
  | .program | .blockStatement | .staticBlock | .classBody => ["body"]
  | .expressionStatement | .chainExpression | .parenthesizedExpression => ["expression"]
  | .emptyStatement | .debuggerStatement | .identifier | .privateIdentifier | .literal |
    .thisExpression | .super | .templateElement => []
  | .withStatement => ["object", "body"]
  | .returnStatement | .throwStatement | .unaryExpression | .updateExpression |
    .spreadElement | .yieldExpression | .awaitExpression | .restElement => ["argument"]
  | .labeledStatement => ["label", "body"]
  | .breakStatement | .continueStatement => ["label"]
  | .ifStatement | .conditionalExpression => ["test", "consequent", "alternate"]
  | .switchStatement => ["discriminant", "cases"]
  | .switchCase => ["test", "consequent"]
  | .tryStatement => ["block", "handler", "finalizer"]
  | .catchClause => ["param", "body"]
  | .whileStatement => ["test", "body"]
  | .doWhileStatement => ["body", "test"]
  | .forStatement => ["init", "test", "update", "body"]
  | .forInStatement | .forOfStatement => ["left", "right", "body"]
  | .functionDeclaration | .functionExpression => ["id", "params", "body"]
  | .variableDeclaration => ["declarations"]
  | .variableDeclarator => ["id", "init"]
  | .arrayExpression | .arrayPattern => ["elements"]
  | .objectExpression | .objectPattern => ["properties"]
  | .property | .methodDefinition | .propertyDefinition => ["key", "value"]
  | .arrowFunctionExpression => ["params", "body"]
  | .binaryExpression | .assignmentExpression | .logicalExpression | .assignmentPattern =>
    ["left", "right"]
  | .memberExpression => ["object", "property"]
  | .callExpression | .newExpression => ["callee", "arguments"]
  | .sequenceExpression => ["expressions"]
  | .templateLiteral => ["quasis", "expressions"]
  | .taggedTemplateExpression => ["tag", "quasi"]
  | .classDeclaration | .classExpression => ["id", "superClass", "body"]
  | .metaProperty => ["meta", "property"]
  | .importDeclaration => ["specifiers", "source"]
  | .importSpecifier => ["imported", "local"]
  | .importDefaultSpecifier | .importNamespaceSpecifier => ["local"]
  | .importExpression => ["source"]
  | .exportNamedDeclaration => ["declaration", "specifiers", "source"]
  | .exportSpecifier => ["local", "exported"]
  | .exportDefaultDeclaration => ["declaration"]
  | .exportAllDeclaration => ["source", "exported"]

theorem ofName?_name (k : Kind) : ofName? k.name = some k := by
  cases k <;> decide

end Kind

def moduleKinds : List String :=
  ["ImportDeclaration", "ExportNamedDeclaration", "ExportDefaultDeclaration",
   "ExportAllDeclaration"]

def Node.kind? (n : Node) : Option Kind :=
  match n.kind with
  | .str s => Kind.ofName? s
  | _ => none

def Tree.holdsNode : Tree → Bool
  | .node _ _ _ => true
  | .list xs => xs.any Tree.isNode
  | _ => false

def Node.childKeys (n : Node) : Except Fault (List String) := do
  let _ ← n.kind.key
  match n.kind? with
  | some k => return k.children
  | none => return (n.fields.filter fun f => f.2.holdsNode).map (·.1)

end Overload
