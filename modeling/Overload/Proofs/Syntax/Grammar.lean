import Mathlib.Data.List.Basic
import Overload.Proofs.Syntax.Token

/-!
The grammar of operator expressions: one level for each nonterminal, a production for each
constructor of `Reads`.
-/

namespace Overload.Syntax

inductive Level where
  | expression | assignment | conditional | shortCircuit | coalesce | logicalOr | logicalAnd
  | bitOr | bitXor | bitAnd | equality | relational | shift | additive | multiplicative
  | exponentiation | unary | update | leftHandSide | primary
  deriving DecidableEq, Repr

namespace Level

def rank : Level → Nat
  | .expression => 1
  | .assignment => 3
  | .conditional => 4
  | .shortCircuit => 5
  | .coalesce => 5
  | .logicalOr => 6
  | .logicalAnd => 7
  | .bitOr => 8
  | .bitXor => 9
  | .bitAnd => 10
  | .equality => 11
  | .relational => 12
  | .shift => 13
  | .additive => 14
  | .multiplicative => 15
  | .exponentiation => 16
  | .unary => 17
  | .update => 18
  | .leftHandSide => 20
  | .primary => 21

def units : Level → List Level
  | .expression => [.assignment]
  | .assignment => [.conditional]
  | .conditional => [.shortCircuit]
  | .shortCircuit => [.coalesce, .logicalOr]
  | .coalesce => [.bitOr]
  | .logicalOr => [.logicalAnd]
  | .logicalAnd => [.bitOr]
  | .bitOr => [.bitXor]
  | .bitXor => [.bitAnd]
  | .bitAnd => [.equality]
  | .equality => [.relational]
  | .relational => [.shift]
  | .shift => [.additive]
  | .additive => [.multiplicative]
  | .multiplicative => [.exponentiation]
  | .exponentiation => [.unary]
  | .unary => [.update]
  | .update => [.leftHandSide]
  | .leftHandSide => [.primary]
  | .primary => []

def operand? : Level → Option Level
  | .coalesce => some .bitOr
  | .logicalOr => some .logicalAnd
  | .logicalAnd => some .bitOr
  | .bitOr => some .bitXor
  | .bitXor => some .bitAnd
  | .bitAnd => some .equality
  | .equality => some .relational
  | .relational => some .shift
  | .shift => some .additive
  | .additive => some .multiplicative
  | .multiplicative => some .exponentiation
  | _ => none

end Level

def levelOf : BinaryOp → Level
  | .add | .sub => .additive
  | .mul | .div | .mod => .multiplicative
  | .pow => .exponentiation
  | .lshift | .rshift | .urshift => .shift
  | .xor => .bitXor
  | .bitAnd => .bitAnd
  | .bitOr => .bitOr
  | .eq | .ne | .seq | .sne => .equality
  | .lt | .le | .gt | .ge | .isIn | .instanceOf => .relational
  | .and => .logicalAnd
  | .or => .logicalOr
  | .nullish => .coalesce

lemma rank_levelOf_le (op : BinaryOp) : (levelOf op).rank ≤ 16 := by
  cases op <;> decide

def symbol (s : String) : Token := if s.toList.all Char.isAlpha then .word s else .mark s

def commas (parts : List (List Token)) : List Token := List.intercalate [.mark ","] parts

inductive Reads : Level → List Token → Expr → Prop
  | unit {l m : Level} {ts : List Token} {e : Expr} : m ∈ l.units → Reads m ts e → Reads l ts e
  | ident {s : String} : isIdentifier s = true → Reads .primary [.word s] (.ident s)
  | number {n : Nat} : Reads .primary [.number n] (.number n)
  | text {s : String} : Reads .primary [.text s] (.text s)
  | bool {b : Bool} : Reads .primary [.word (if b then "true" else "false")] (.bool b)
  | null : Reads .primary [.word "null"] .null
  | group {ts : List Token} {e : Expr} : Reads .expression ts e →
      Reads .primary (.mark "(" :: ts ++ [.mark ")"]) e
  | member {ts : List Token} {e : Expr} {s : String} : Reads .leftHandSide ts e →
      isName s = true → Reads .leftHandSide (ts ++ [.mark ".", .word s]) (.member e s)
  | index {ts us : List Token} {e p : Expr} : Reads .leftHandSide ts e →
      Reads .expression us p →
      Reads .leftHandSide (ts ++ .mark "[" :: us ++ [.mark "]"]) (.index e p)
  | call {ts : List Token} {e : Expr} {arguments : List (List Token × Expr)}
      {comma : List Token} : Reads .leftHandSide ts e →
      (∀ a ∈ arguments, Reads .assignment a.1 a.2) →
      (comma = [] ∨ comma = [.mark ","] ∧ arguments ≠ []) →
      Reads .leftHandSide
        (ts ++ .mark "(" :: commas (arguments.map (·.1)) ++ comma ++ [.mark ")"])
        (.call e (arguments.map (·.2)))
  | postfixed {op : UpdateOp} {ts : List Token} {e : Expr} : Reads .leftHandSide ts e →
      e.isTarget = true → Reads .update (ts ++ [symbol op.token]) (.update op false e)
  | prefixed {op : UpdateOp} {ts : List Token} {e : Expr} : Reads .unary ts e →
      e.isTarget = true → Reads .update (symbol op.token :: ts) (.update op true e)
  | unary {op : PrefixOp} {ts : List Token} {e : Expr} : Reads .unary ts e →
      Reads .unary (symbol op.token :: ts) (.unary op e)
  | await {ts : List Token} {e : Expr} : Reads .unary ts e →
      Reads .unary (.word "await" :: ts) (.await e)
  | power {ts us : List Token} {l r : Expr} : Reads .update ts l →
      Reads .exponentiation us r →
      Reads .exponentiation (ts ++ symbol BinaryOp.pow.token :: us) (.binary .pow l r)
  | binary {op : BinaryOp} {m : Level} {ts us : List Token} {l r : Expr} :
      (levelOf op).operand? = some m → Reads (levelOf op) ts l → Reads m us r →
      Reads (levelOf op) (ts ++ symbol op.token :: us) (.binary op l r)
  | conditional {ts us vs : List Token} {c a b : Expr} : Reads .shortCircuit ts c →
      Reads .assignment us a → Reads .assignment vs b →
      Reads .conditional (ts ++ .mark "?" :: us ++ .mark ":" :: vs) (.conditional c a b)
  | assign {op : Option BinaryOp} {ts us : List Token} {e v : Expr} :
      op.all isAssignable = true → Reads .leftHandSide ts e → e.isTarget = true →
      Reads .assignment us v →
      Reads .assignment (ts ++ symbol (assignToken op) :: us) (.assign op e v)
  | pause : Reads .assignment [.word "yield"] .pause
  | yield {ts : List Token} {e : Expr} : Reads .assignment ts e →
      Reads .assignment (.word "yield" :: ts) (.yield e)
  | delegate {ts : List Token} {e : Expr} : Reads .assignment ts e →
      Reads .assignment (.word "yield" :: .mark "*" :: ts) (.delegate e)
  | sequence {items : List (List Token × Expr)} : (∀ a ∈ items, Reads .assignment a.1 a.2) →
      2 ≤ items.length →
      Reads .expression (commas (items.map (·.1))) (.sequence (items.map (·.2)))

end Overload.Syntax
