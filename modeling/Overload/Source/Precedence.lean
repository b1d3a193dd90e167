import Overload.Tree.Kind

/-! How tightly an expression binds, and which expression its text starts with. -/

namespace Overload.Source

def levels : List (String × Nat) :=
  [(",", 1), ("=", 3), ("?:", 4), ("??", 5), ("||", 6), ("&&", 7), ("|", 8), ("^", 9), ("&", 10),
   ("==", 11), ("!=", 11), ("===", 11), ("!==", 11), ("<", 12), ("<=", 12), (">", 12), (">=", 12),
   ("in", 12), ("instanceof", 12), ("<<", 13), (">>", 13), (">>>", 13), ("+", 14), ("-", 14),
   ("*", 15), ("/", 15), ("%", 15), ("**", 16), ("unary", 17), ("postfix", 18), ("member", 20),
   ("primary", 21)]

def sequenceLevel : Nat := 1
def assignmentLevel : Nat := 3
def conditionalLevel : Nat := 4
def unaryLevel : Nat := 17
def postfixLevel : Nat := 18
def memberLevel : Nat := 20
def primaryLevel : Nat := 21

def operatorLevel (op : Tree) : Except Fault Nat := do
  match ← op.key with
  | .str s =>
    match Entries.get? s levels with
    | some level => return level
    | none => throw .noEntry
  | _ => throw .noEntry

def precedence (t : Tree) : Except Fault Nat := do
  let n ← t.asNode
  match n.kind? with
  | some .sequenceExpression => return sequenceLevel
  | some .assignmentExpression | some .arrowFunctionExpression | some .yieldExpression =>
    return assignmentLevel
  | some .conditionalExpression => return conditionalLevel
  | some .binaryExpression | some .logicalExpression => operatorLevel (← n.attr "operator")
  | some .unaryExpression | some .awaitExpression => return unaryLevel
  | some .updateExpression =>
    return if (← n.attr "prefix").truthy then unaryLevel else postfixLevel
  | some .callExpression | some .newExpression | some .memberExpression | some .chainExpression
  | some .taggedTemplateExpression => return memberLevel
  | _ => return primaryLevel

inductive Start where
  | here
  | field (name : String)
  | first (name : String)

def start (n : Node) : Except Fault Start :=
  match n.kind? with
  | some .binaryExpression | some .logicalExpression | some .assignmentExpression =>
    .ok (.field "left")
  | some .conditionalExpression => .ok (.field "test")
  | some .callExpression => .ok (.field "callee")
  | some .taggedTemplateExpression => .ok (.field "tag")
  | some .memberExpression => .ok (.field "object")
  | some .sequenceExpression => .ok (.first "expressions")
  | some .chainExpression => .ok (.field "expression")
  | some .updateExpression => do
    return if (← n.attr "prefix").truthy then .here else .field "argument"
  | _ => .ok .here

mutual

def leftmost : Tree → Except Fault Node
  | .node id kind fields =>
    match start ⟨id, kind, fields⟩ with
    | .error e => .error e
    | .ok .here => .ok ⟨id, kind, fields⟩
    | .ok (.field name) => leftmostField name fields
    | .ok (.first name) => leftmostFirst name fields
  | _ => .error .noAttribute
termination_by structural t => t

def leftmostField (name : String) : List (String × Tree) → Except Fault Node
  | [] => .error .noAttribute
  | (n, t) :: rest => if n = name then leftmost t else leftmostField name rest
termination_by structural fs => fs

def leftmostFirst (name : String) : List (String × Tree) → Except Fault Node
  | [] => .error .noAttribute
  | (n, t) :: rest => if n = name then leftmostHead t else leftmostFirst name rest
termination_by structural fs => fs

def leftmostHead : Tree → Except Fault Node
  | .list xs => leftmostItem xs
  | .str s => .error (if s = "" then .outOfRange else .noAttribute)
  | .object _ => .error .noEntry
  | _ => .error .unsuitable
termination_by structural t => t

def leftmostItem : List Tree → Except Fault Node
  | [] => .error .outOfRange
  | t :: _ => leftmost t
termination_by structural xs => xs

end

end Overload.Source
