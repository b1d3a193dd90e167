import Overload.Operator
import Overload.Text.Word
import Overload.Tree.Kind

/-! Operator expressions, how tightly they bind, and the trees that show them. -/

namespace Overload.Syntax

inductive PrefixOp where
  | pos | neg | not | invert | typeof | void | delete
  deriving DecidableEq, Repr

def PrefixOp.token : PrefixOp → String
  | .pos => "+"
  | .neg => "-"
  | .not => "!"
  | .invert => "~"
  | .typeof => "typeof"
  | .void => "void"
  | .delete => "delete"

inductive UpdateOp where
  | increment | decrement
  deriving DecidableEq, Repr

def UpdateOp.token : UpdateOp → String
  | .increment => "++"
  | .decrement => "--"

inductive Expr where
  | ident (name : String)
  | number (n : Nat)
  | text (s : String)
  | bool (b : Bool)
  | null
  | unary (op : PrefixOp) (argument : Expr)
  | update (op : UpdateOp) (isBefore : Bool) (target : Expr)
  | binary (op : BinaryOp) (left right : Expr)
  | conditional (test consequent alternate : Expr)
  | assign (op : Option BinaryOp) (target value : Expr)
  | sequence (items : List Expr)
  | await (argument : Expr)
  | pause
  | yield (argument : Expr)
  | delegate (argument : Expr)
  | member (object : Expr) (name : String)
  | index (object property : Expr)
  | call (callee : Expr) (arguments : List Expr)

theorem Expr.induction {P : Expr → Prop} (ident : ∀ s, P (.ident s)) (number : ∀ n, P (.number n))
    (text : ∀ s, P (.text s)) (bool : ∀ b, P (.bool b)) (null : P .null)
    (unary : ∀ op e, P e → P (.unary op e)) (update : ∀ op b e, P e → P (.update op b e))
    (binary : ∀ op l r, P l → P r → P (.binary op l r))
    (conditional : ∀ c a b, P c → P a → P b → P (.conditional c a b))
    (assign : ∀ op e v, P e → P v → P (.assign op e v))
    (sequence : ∀ es, (∀ e ∈ es, P e) → P (.sequence es)) (await : ∀ e, P e → P (.await e))
    (pause : P .pause) (yield : ∀ e, P e → P (.yield e)) (delegate : ∀ e, P e → P (.delegate e))
    (member : ∀ e s, P e → P (.member e s)) (index : ∀ e p, P e → P p → P (.index e p))
    (call : ∀ e es, P e → (∀ a ∈ es, P a) → P (.call e es)) (e : Expr) : P e := by
  refine @Expr.rec P (fun es => ∀ e ∈ es, P e) ident number text bool null unary update binary
    conditional assign sequence await pause yield delegate member index call ?_ ?_ e
  · simp
  · intro e es he hes
    simpa using ⟨he, hes⟩

namespace Expr

def isTarget : Expr → Bool
  | .ident _ | .member _ _ | .index _ _ => true
  | _ => false

def isNumber : Expr → Bool
  | .number _ => true
  | _ => false

end Expr

def isLogical (op : BinaryOp) : Bool := op == .and || op == .or || op == .nullish

def isAssignable (op : BinaryOp) : Bool :=
  match op.family? with
  | some .arithmetic | some .bitwise | some .logical => true
  | _ => false

def assignToken : Option BinaryOp → String
  | none => "="
  | some op => op.token ++ "="

def isNameStart (c : Char) : Bool :=
  if c.toNat < 128 then c.isAlpha || c == '_' || c == '$'
  else Text.isLetter c && c.toNat != 0x2e2f || Text.inRanges Text.startRanges c.toNat

def isNamePart (c : Char) : Bool :=
  if c.toNat < 128 then c.isAlphanum || c == '_' || c == '$'
  else isNameStart c || Text.inRuns Text.partRuns c.toNat || c.toNat == 0x200c ||
    c.toNat == 0x200d

def isName (s : String) : Bool :=
  match s.toList with
  | [] => false
  | c :: cs => isNameStart c && cs.all isNamePart

def reserved : List String :=
  ["await", "break", "case", "catch", "class", "const", "continue", "debugger", "default",
   "delete", "do", "else", "enum", "export", "extends", "false", "finally", "for", "function",
   "if", "import", "in", "instanceof", "new", "null", "return", "super", "switch", "this",
   "throw", "true", "try", "typeof", "var", "void", "while", "with", "yield"]

def isIdentifier (s : String) : Bool := isName s && !reserved.contains s

def OfKind (kind : Kind) (P : Node → Prop) (t : Tree) : Prop :=
  ∃ n : Node, t = n.toTree ∧ n.kind = .str kind.name ∧ P n

def Field (name : String) (P : Tree → Prop) (n : Node) : Prop :=
  ∃ c, n.get? name = some c ∧ P c

def Flag (name : String) (b : Bool) (n : Node) : Prop := (n.get name).truthy = b

def Constant (value : Tree) : Tree → Prop :=
  OfKind .literal fun n => n.get "regex" = .null ∧ n.get "bigint" = .null ∧ n.get "value" = value

mutual

/-- The tree is the node that stands for the expression, whatever other fields it has. -/
def Shows : Expr → Tree → Prop
  | .ident s => OfKind .identifier fun n => Field "name" (· = .str s) n ∧ isIdentifier s = true
  | .number k => Constant (.num (.int k))
  | .text s => Constant (.str s)
  | .bool b => Constant (.bool b)
  | .null => Constant .null
  | .unary op e => OfKind .unaryExpression fun n =>
    Field "operator" (· = .str op.token) n ∧ Field "argument" (Shows e) n
  | .update op isBefore e => OfKind .updateExpression fun n =>
    Field "operator" (· = .str op.token) n ∧ Field "prefix" (·.truthy = isBefore) n ∧
      Field "argument" (Shows e) n ∧ e.isTarget = true
  | .binary op l r =>
    OfKind (if isLogical op then .logicalExpression else .binaryExpression) fun n =>
      Field "operator" (· = .str op.token) n ∧ Field "left" (Shows l) n ∧ Field "right" (Shows r) n
  | .conditional c a b => OfKind .conditionalExpression fun n =>
    Field "test" (Shows c) n ∧ Field "consequent" (Shows a) n ∧ Field "alternate" (Shows b) n
  | .assign op e v => OfKind .assignmentExpression fun n =>
    Field "operator" (· = .str (assignToken op)) n ∧ op.all isAssignable = true ∧
      Field "left" (Shows e) n ∧ e.isTarget = true ∧ Field "right" (Shows v) n
  | .sequence es => OfKind .sequenceExpression fun n =>
    Field "expressions" (fun c => ∃ ts, c = .list ts ∧ ShowsAll es ts) n ∧ 2 ≤ es.length
  | .await e => OfKind .awaitExpression fun n => Field "argument" (Shows e) n
  | .pause => OfKind .yieldExpression fun n => n.get "argument" = .null ∧ Flag "delegate" false n
  | .yield e => OfKind .yieldExpression fun n =>
    Field "argument" (Shows e) n ∧ Flag "delegate" false n
  | .delegate e => OfKind .yieldExpression fun n =>
    Field "argument" (Shows e) n ∧ Flag "delegate" true n
  | .member e s => OfKind .memberExpression fun n =>
    Field "object" (Shows e) n ∧ Flag "computed" false n ∧ Flag "optional" false n ∧ isName s ∧
      Field "property" (OfKind .identifier (Field "name" (· = .str s))) n
  | .index e p => OfKind .memberExpression fun n =>
    Field "object" (Shows e) n ∧ Flag "computed" true n ∧ Flag "optional" false n ∧
      Field "property" (Shows p) n
  | .call e es => OfKind .callExpression fun n =>
    Field "callee" (Shows e) n ∧ Flag "optional" false n ∧
      Field "arguments" (fun c => ∃ ts, c = .list ts ∧ ShowsAll es ts) n

def ShowsAll : List Expr → List Tree → Prop
  | [] => fun ts => ts = []
  | e :: es => fun ts => ∃ t rest, ts = t :: rest ∧ Shows e t ∧ ShowsAll es rest

end

def Expr.kind : Expr → Kind
  | .ident _ => .identifier
  | .number _ | .text _ | .bool _ | .null => .literal
  | .unary _ _ => .unaryExpression
  | .update _ _ _ => .updateExpression
  | .binary op _ _ => if isLogical op then .logicalExpression else .binaryExpression
  | .conditional _ _ _ => .conditionalExpression
  | .assign _ _ _ => .assignmentExpression
  | .sequence _ => .sequenceExpression
  | .await _ => .awaitExpression
  | .pause | .yield _ | .delegate _ => .yieldExpression
  | .member _ _ | .index _ _ => .memberExpression
  | .call _ _ => .callExpression

theorem Shows.exists_node {e : Expr} {t : Tree} (h : Shows e t) :
    ∃ n : Node, t = n.toTree ∧ n.kind = .str e.kind.name := by
  cases e <;> rw [Shows] at h <;> obtain ⟨n, ht, hk, -⟩ := h <;> exact ⟨n, ht, hk⟩

end Overload.Syntax
