import Overload.Proofs.Failing
import Overload.Proofs.Syntax.Writing

/-! The character that the text of an expression starts with. -/

namespace Overload.Syntax

open Source List Number String Node Except

variable {t : Tree} {s : String}

variable {n : Node} {cs : List Char} {k : Kind} {body : Tree} {ps : List Part}

def brace : Char := '\x7b'

def Bare (cs : List Char) : Prop := ∃ c rest, cs = c :: rest ∧ c ≠ brace

lemma Bare.append (h : Bare cs) (ds : List Char) : Bare (cs ++ ds) := by
  obtain ⟨c, rest, rfl, hc⟩ := h
  exact ⟨c, rest ++ ds, rfl, hc⟩

def numberStarts : List Char := "0123456789-NIn".toList

def Numeric (cs : List Char) : Prop := ∃ c rest, cs = c :: rest ∧ c ∈ numberStarts

lemma Numeric.append (h : Numeric cs) (ds : List Char) : Numeric (cs ++ ds) := by
  obtain ⟨c, rest, rfl, hc⟩ := h
  exact ⟨c, rest ++ ds, rfl, hc⟩

lemma Numeric.bare (h : Numeric cs) : Bare cs := by
  obtain ⟨c, rest, rfl, hc⟩ := h
  have hall : ∀ c ∈ numberStarts, c ≠ brace := forall_of_all (by decide)
  exact ⟨c, rest, rfl, hall c hc⟩

lemma numeric_of_isDigit {c : Char} (h : c.isDigit = true) : Numeric (c :: cs) := by
  have hsub : "0123456789".toList ⊆ numberStarts := subset_append_left _ "-NIn".toList
  exact ⟨c, cs, rfl, hsub (mem_digits_of_isDigit h)⟩

lemma numeric_toDigits (n : Nat) : Numeric (Nat.toDigits 10 n) := by
  obtain ⟨c, cs, he⟩ := exists_cons_of_ne_nil (Nat.toDigits_ne_nil (n := n) (b := 10))
  rw [he]
  exact numeric_of_isDigit (Nat.isDigit_of_mem_toDigits (by omega) (by omega) (he ▸ mem_cons_self))

lemma numeric_take (h : Numeric cs) {n : Nat} (hn : 0 < n) : Numeric (cs.take n) := by
  obtain ⟨c, rest, rfl, hc⟩ := h
  obtain ⟨k, rfl⟩ := Nat.exists_eq_succ_of_ne_zero (by omega : n ≠ 0)
  exact ⟨c, rest.take k, rfl, hc⟩

lemma numeric_digitsText (l : Layout) (d : Decimal) : Numeric (l.digitsText d) := by
  have hd := numeric_toDigits d.coefficient
  simp only [Layout.digitsText]
  split
  · rw [Layout.positional]
    split
    · exact ⟨'0', _, rfl, by decide⟩
    split
    · rw [List.append_assoc]
      exact hd.append _
    · exact (numeric_take hd (by omega)).append _
  · simp only [Layout.scientific, List.append_assoc]
    exact (numeric_take hd (by omega)).append _

lemma numeric_sign (b : Bool) (h : Numeric cs) :
    Numeric ((if b then "-" else "").toList ++ cs) := by
  cases b with
  | true => exact ⟨'-', cs, rfl, by decide⟩
  | false => exact h

lemma numeric_number (n : Num) : Numeric n.text.toList := by
  cases n with
  | int k =>
    cases k with
    | ofNat k =>
      have htext : (Num.int (.ofNat k)).text = Nat.repr k := rfl
      rw [htext]
      simpa using numeric_toDigits k
    | negSucc k =>
      have htext : (Num.int (.negSucc k)).text = "-" ++ Nat.repr (k + 1) := rfl
      rw [htext, toList_append]
      exact ⟨'-', _, rfl, by decide⟩
  | float x =>
    rw [Num.text, Layout.text]
    split
    · exact ⟨'N', _, rfl, by decide⟩
    split
    · split
      · exact ⟨'-', _, rfl, by decide⟩
      · exact ⟨'I', _, rfl, by decide⟩
    simp only
    split
    · rw [toList_append]
      exact numeric_sign _ ⟨'0', _, rfl, by decide⟩
    · rw [toList_append, toList_ofList]
      exact numeric_sign _ (numeric_digitsText _ _)

lemma bare_name (h : isName s = true) : Bare s.toList := by
  unfold isName at h
  split at h
  · simp at h
  · rename_i c cs he
    rw [he]
    refine ⟨c, cs, rfl, ?_⟩
    rintro rfl
    exact absurd ((Bool.and_eq_true _ _).mp h).1 (by decide)

lemma renders_name {rest : List Part} (ht : OfKind .identifier (Field "name" (· = .str s)) t)
    (hr : Renders (.tree t :: rest) cs) : ∃ bs, cs = s.toList ++ bs ∧ Renders rest bs := by
  obtain ⟨n, rfl, hk, c, hc, rfl⟩ := ht
  obtain ⟨ps, he, hr⟩ := hr.of_node
  have he' : expand n = .ok [.tree (.str s)] := by
    rw [expand_of_kind hk]
    simp [expandKind, attr_of_get? hc]
  obtain rfl : [Part.tree (.str s)] = ps := by simpa [he'] using he
  exact hr.of_string

def Unbraced (ps : List Part) : Prop := ∀ cs, Renders ps cs → Bare cs

namespace Unbraced

variable {rest : List Part}

lemma text (h : Bare s.toList) : Unbraced (.text s :: rest) := by
  intro cs hr
  obtain ⟨bs, rfl, -⟩ := hr.of_text
  exact h.append bs

lemma name (ht : OfKind .identifier (Field "name" (· = .str s)) t) (h : isName s = true) :
    Unbraced (.tree t :: rest) := by
  intro cs hr
  obtain ⟨bs, rfl, -⟩ := renders_name ht hr
  exact (bare_name h).append bs

end Unbraced

def Safe (p : Parts) : Prop := ∀ ps, p = .ok ps → Unbraced ps

lemma Safe.bind {α : Type} {x : Except Fault α} {f : α → Parts} (h : ∀ a, x = .ok a → Safe (f a)) :
    Safe (x >>= f) := by
  intro ps hps
  obtain ⟨a, ha, hf⟩ := except_bind_eq_ok.1 hps
  exact h a ha ps hf

lemma Safe.ok (h : Unbraced ps) : Safe (.ok ps) := by
  rintro _ ⟨⟩
  exact h

def Yields (P : List Char → Prop) (p : Parts) : Prop := ∀ ps cs, p = .ok ps → Renders ps cs → P cs

def StartsWith (texts : List String) (cs : List Char) : Prop := ∃ s ∈ texts, s.toList <+: cs

lemma StartsWith.bare {texts : List String} (h : StartsWith texts cs)
    (ht : ∀ s ∈ texts, s.toList.head?.any (· != brace) = true) : Bare cs := by
  obtain ⟨s, hs, rest, rfl⟩ := h
  have hhead := ht s hs
  cases he : s.toList with
  | nil => simp [he] at hhead
  | cons c cs => exact ⟨c, cs ++ rest, rfl, by simpa [he] using hhead⟩

namespace Yields

variable {P : List Char → Prop} {texts : List String} {rest : List Part} {p : Parts}

lemma bind {α : Type} {x : Except Fault α} {f : α → Parts} (h : ∀ a, x = .ok a → Yields P (f a)) :
    Yields P (x >>= f) := by
  intro ps cs hps
  obtain ⟨a, ha, hf⟩ := except_bind_eq_ok.1 hps
  exact h a ha ps cs hf

lemma text (hs : s ∈ texts) : Yields (StartsWith texts) (.ok (.text s :: rest)) := by
  rintro _ cs ⟨⟩ hr
  obtain ⟨bs, rfl, -⟩ := hr.of_text
  exact ⟨s, hs, prefix_append _ _⟩

lemma string (hs : s ∈ texts) : Yields (StartsWith texts) (.ok (.tree (.str s) :: rest)) := by
  rintro _ cs ⟨⟩ hr
  obtain ⟨bs, rfl, -⟩ := hr.of_string
  exact ⟨s, hs, prefix_append _ _⟩

lemma textIf (c : Bool) {s' : String} (hs : s ++ s' ∈ texts) (hs' : s' ∈ texts) :
    Yields (StartsWith texts) (.ok (Source.textIf c s ++ .text s' :: rest)) := by
  cases c with
  | false => exact text hs'
  | true =>
    rintro _ cs ⟨⟩ hr
    obtain ⟨bs, rfl, hb⟩ := hr.of_text
    obtain ⟨ds, rfl, -⟩ := hb.of_text
    exact ⟨s ++ s', hs, by simp⟩

lemma safe (h : Yields P p) (hP : ∀ cs, P cs → Bare cs) : Safe p :=
  fun ps hps cs hr => hP cs (h ps cs hps hr)

end Yields

def ownKinds : List Kind :=
  [.privateIdentifier, .thisExpression, .super, .templateLiteral, .arrayExpression,
   .functionExpression, .classExpression, .arrowFunctionExpression, .awaitExpression,
   .yieldExpression, .newExpression, .importExpression, .parenthesizedExpression]

def firstTexts : Kind → List String
  | .privateIdentifier => ["#"]
  | .thisExpression => ["this"]
  | .super => ["super"]
  | .templateLiteral => ["`"]
  | .arrayExpression => ["["]
  | .functionExpression => ["async function", "function"]
  | .classExpression => ["class"]
  | .arrowFunctionExpression => ["async (", "("]
  | .awaitExpression => ["await "]
  | .yieldExpression => ["yield*", "yield"]
  | .newExpression => ["new "]
  | .importExpression => ["import("]
  | .parenthesizedExpression => ["("]
  | _ => []

lemma yields_function (n : Node) :
    Yields (StartsWith ["async function", "function"]) (function n) := by
  refine .bind fun _ _ => ?_
  rw [List.append_assoc, List.append_assoc]
  exact .textIf _ (.head _) (.tail _ (.head _))

lemma yields_arrow (n : Node) : Yields (StartsWith ["async (", "("]) (arrow n) := by
  refine .bind fun _ _ => .bind fun _ _ => .bind fun _ _ => .bind fun _ _ => ?_
  rw [List.append_assoc]
  exact .textIf _ (.head _) (.tail _ (.head _))

lemma yields_yield (n : Node) : Yields (StartsWith ["yield*", "yield"]) (Source.yield n) := by
  have hword : (if (n.get "delegate").truthy then "yield*" else "yield") ∈ ["yield*", "yield"] := by
    split <;> decide
  unfold Source.yield
  simp only
  split
  · exact .text hword
  · exact .bind fun _ _ => .text hword

lemma yields_class (n : Node) : Yields (StartsWith ["class"]) (classParts n) := by
  unfold classParts
  simp only
  split
  · exact .bind fun _ _ => .bind fun _ _ => .text (.head _)
  · exact .bind fun _ _ => .bind fun _ _ => .bind fun _ _ => .text (.head _)

lemma yields_new (n : Node) : Yields (StartsWith ["new "]) (Source.new n) := by
  refine .bind fun _ _ => .bind fun _ _ => .bind fun _ _ => ?_
  simp only
  split
  · exact .bind fun _ _ => .bind fun _ _ => .text (.head _)
  · exact .bind fun _ _ => .bind fun _ _ => .bind fun _ _ => .text (.head _)

lemma yields_array (n : Node) : Yields (StartsWith ["["]) (array n) :=
  .bind fun _ _ => .bind fun _ _ => .text (.head _)

theorem yields_of_ownKinds (n : Node) :
    ∀ k ∈ ownKinds, Yields (StartsWith (firstTexts k)) (expandKind n k) := by
  simp only [ownKinds, forall_mem_cons]
  refine ⟨?_, ?_, ?_, ?_, yields_array n, yields_function n, yields_class n, yields_arrow n, ?_,
    yields_yield n, yields_new n, ?_, ?_, by simp⟩
  · exact .bind fun _ _ => .text (.head _)
  · exact .text (.head _)
  · exact .text (.head _)
  · exact .bind fun _ _ => .bind fun _ _ => .bind fun _ _ => .bind fun _ _ => .text (.head _)
  · exact .bind fun _ _ => .bind fun _ _ => .text (.head _)
  · exact .bind fun _ _ => .bind fun _ _ => .text (.head _)
  · exact .bind fun _ _ => .text (.head _)

theorem safe_of_ownKinds (n : Node) (hk : k ∈ ownKinds) : Safe (expandKind n k) := by
  have hall : ∀ k ∈ ownKinds, ∀ s ∈ firstTexts k, s.toList.head?.any (· != brace) = true := by
    decide
  exact (yields_of_ownKinds n k hk).safe fun _ h => h.bare (hall k hk)

def leadFields : List (Kind × String) :=
  [(.conditionalExpression, "test"), (.callExpression, "callee"),
   (.taggedTemplateExpression, "tag"), (.memberExpression, "object")]

/-- An expression, as far as the start of its text goes: names are names, operators are operators,
and what is assigned to is a name, a member or a pattern. -/
inductive Expression : Tree → Prop
  | own {n : Node} {k : Kind} : n.kind = .str k.name → k ∈ ownKinds → Expression n.toTree
  | object {n : Node} : n.kind = .str Kind.objectExpression.name → Expression n.toTree
  | identifier {t : Tree} {s : String} : OfKind .identifier (Field "name" (· = .str s)) t →
      isName s = true → Expression t
  | literal {n : Node} : n.kind = .str Kind.literal.name →
      (n.get "bigint" = .null ∨ ∃ s, n.get "bigint" = .str s ∧ s.toList.all Char.isDigit = true) →
      Expression n.toTree
  | metaProperty {n : Node} {s : String} : n.kind = .str Kind.metaProperty.name →
      Field "meta" (OfKind .identifier (Field "name" (· = .str s))) n → isName s = true →
      Expression n.toTree
  | unary {n : Node} {op : PrefixOp} : n.kind = .str Kind.unaryExpression.name →
      n.get? "operator" = some (.str op.token) → Expression n.toTree
  | prefixed {n : Node} {op : UpdateOp} : n.kind = .str Kind.updateExpression.name →
      Field "prefix" (·.truthy = true) n → n.get? "operator" = some (.str op.token) →
      Expression n.toTree
  | postfixed {n : Node} {t : Tree} : n.kind = .str Kind.updateExpression.name →
      Field "prefix" (·.truthy = false) n → n.get? "argument" = some t → Expression t →
      Expression n.toTree
  | binary {n : Node} {k : Kind} {op : BinaryOp} {t : Tree} : n.kind = .str k.name →
      k ∈ [Kind.binaryExpression, .logicalExpression] →
      n.get? "operator" = some (.str op.token) → n.get? "left" = some t → Expression t →
      Expression n.toTree
  | led {n : Node} {k : Kind} {name : String} {t : Tree} : n.kind = .str k.name →
      (k, name) ∈ leadFields → n.get? name = some t → Expression t → Expression n.toTree
  | chain {n : Node} {k : Kind} {t : Tree} : n.kind = .str Kind.chainExpression.name →
      n.get? "expression" = some t → k ∈ [Kind.callExpression, .memberExpression] →
      OfKind k (fun _ => True) t → Expression t → Expression n.toTree
  | assignment {n : Node} {k : Kind} {t : Tree} : n.kind = .str Kind.assignmentExpression.name →
      n.get? "left" = some t → k ∈ [Kind.identifier, .memberExpression] →
      OfKind k (fun _ => True) t → Expression t → Expression n.toTree
  | destructuring {n : Node} {k : Kind} {t : Tree} :
      n.kind = .str Kind.assignmentExpression.name → n.get? "left" = some t →
      k ∈ [Kind.objectPattern, .arrayPattern] → OfKind k (fun _ => True) t → Expression n.toTree
  | sequence {n : Node} : n.kind = .str Kind.sequenceExpression.name → Expression n.toTree

def StartsWithObject (t : Tree) : Prop := ∃ m, leftmost t = .ok m ∧ m.is "ObjectExpression" = true

def Destructures : Tree → Prop :=
  OfKind .assignmentExpression (Field "left" (OfKind .objectPattern fun _ => True))

def Leads (t : Tree) : Prop :=
  ∀ cs p, Renders [.tree t] cs → precedence t = .ok p → assignmentLevel ≤ p →
    Bare cs ∨ StartsWithObject t ∨ Destructures t

lemma renders_expandKind (hk : n.kind = .str k.name) (h : Renders [.tree n.toTree] cs) :
    ∃ ps, expandKind n k = .ok ps ∧ Renders ps cs := by
  obtain ⟨ps, he, hr⟩ := h.of_node
  rw [expand_of_kind hk] at he
  exact ⟨ps, he, by simpa using hr⟩

lemma leads_of_safe (hk : n.kind = .str k.name) (h : Safe (expandKind n k)) : Leads n.toTree := by
  intro cs p hr _ _
  obtain ⟨ps, he, hr⟩ := renders_expandKind hk hr
  exact .inl (h ps he cs hr)

lemma numeric_bigint (h : s.toList.all Char.isDigit = true) : Numeric (s ++ "n").toList := by
  rw [toList_append]
  cases hs : s.toList with
  | nil => exact ⟨'n', _, rfl, by decide⟩
  | cons c cs =>
    rw [hs, all_cons, Bool.and_eq_true] at h
    exact numeric_of_isDigit h.1

def StartsLiteral (regex : Tree) (cs : List Char) : Prop :=
  (∃ pattern rest, regex.entry "pattern" = .ok pattern ∧
    cs = '/' :: pattern.shown.toList ++ '/' :: rest) ∨
  Numeric cs ∨ StartsWith ["null", "true", "false", "\""] cs

lemma yields_literalValue (regex v : Tree) : Yields (StartsLiteral regex) (literalValue v) := by
  have htext {s : String} {rest : List Part} (hs : s ∈ ["null", "true", "false", "\""]) :
      Yields (StartsLiteral regex) (.ok (.text s :: rest)) :=
    fun ps cs hps hr => .inr (.inr (Yields.text hs ps cs hps hr))
  cases v with
  | null => exact htext (.head _)
  | bool b => cases b with
    | true => exact htext (.tail _ (.head _))
    | false => exact htext (.tail _ (.tail _ (.head _)))
  | str s => exact htext (.tail _ (.tail _ (.tail _ (.head _))))
  | num n =>
    rintro _ cs ⟨⟩ hr
    obtain ⟨bs, rfl, -⟩ := hr.of_text
    exact .inr (.inl ((numeric_number n).append bs))
  | _ =>
    intro ps cs h
    simp [literalValue] at h

lemma yields_literal
    (h : n.get "bigint" = .null ∨ ∃ s, n.get "bigint" = .str s ∧ s.toList.all Char.isDigit = true) :
    Yields (StartsLiteral (n.get "regex")) (literal n) := by
  unfold literal
  simp only
  split
  · refine .bind fun pattern hp => .bind fun flags _ => ?_
    rintro _ cs ⟨⟩ hr
    obtain ⟨bs, rfl, -⟩ := hr.of_text
    exact .inl ⟨pattern, flags.shown.toList ++ bs, hp, by simp⟩
  split
  · rename_i hnull
    rcases h with h | ⟨s, h, hs⟩
    · simp [h, Tree.isNull] at hnull
    · rw [h, Tree.shown]
      rintro _ cs ⟨⟩ hr
      obtain ⟨bs, rfl, -⟩ := hr.of_text
      exact .inr (.inl ((numeric_bigint hs).append bs))
  · exact yields_literalValue _ _

lemma safe_literal
    (h : n.get "bigint" = .null ∨ ∃ s, n.get "bigint" = .str s ∧ s.toList.all Char.isDigit = true) :
    Safe (literal n) := by
  refine (yields_literal h).safe fun cs hcs => ?_
  rcases hcs with ⟨pattern, rest, -, rfl⟩ | hn | ht
  · exact ⟨'/', _, rfl, by decide⟩
  · exact hn.bare
  · exact ht.bare (by decide)

lemma leftmostField_of_get? {name : String} {fields : List (String × Tree)}
    (h : Entries.get? name fields = some t) : leftmostField name fields = leftmost t := by
  induction fields with
  | nil => simp at h
  | cons f fields ih =>
    obtain ⟨k, c⟩ := f
    rw [leftmostField]
    by_cases hk : k = name
    · simp only [Entries.get?, hk, if_true, Option.some.injEq] at h
      rw [if_pos hk, h]
    · simp only [Entries.get?, hk, if_false] at h
      rw [if_neg hk, ih h]

lemma leftmost_of_start {name : String} (hs : start n = .ok (.field name)) (hn : name ≠ "type")
    (ht : n.get? name = some t) : leftmost n.toTree = leftmost t := by
  rw [Node.get?, if_neg hn] at ht
  rw [toTree, leftmost, hs]
  exact leftmostField_of_get? ht

lemma leftmostFirst_of_get? {name : String} {fields : List (String × Tree)} {ts : List Tree}
    (h : Entries.get? name fields = some (.list (t :: ts))) :
    leftmostFirst name fields = leftmost t := by
  induction fields with
  | nil => simp at h
  | cons f fields ih =>
    obtain ⟨k, c⟩ := f
    rw [leftmostFirst]
    by_cases hk : k = name
    · simp only [Entries.get?, hk, if_true, Option.some.injEq] at h
      rw [if_pos hk, h, leftmostHead, leftmostItem]
    · simp only [Entries.get?, hk, if_false] at h
      rw [if_neg hk, ih h]

lemma leftmost_of_first {name : String} {ts : List Tree} (hs : start n = .ok (.first name))
    (hn : name ≠ "type") (ht : n.get? name = some (.list (t :: ts))) :
    leftmost n.toTree = leftmost t := by
  rw [Node.get?, if_neg hn] at ht
  rw [toTree, leftmost, hs]
  exact leftmostFirst_of_get? ht

lemma leftmost_of_here (hs : start n = .ok .here) : leftmost n.toTree = .ok n := by
  rw [toTree, leftmost, hs]

def Guarded (t : Tree) (ps : List Part) : Prop :=
  ps = parenthesized t ∨ ps = [.tree t] ∧ ∃ p, precedence t = .ok p ∧ assignmentLevel < p

lemma guarded_operand {least : Nat} (h : operand t least = .ok ps) (hl : assignmentLevel < least) :
    Guarded t ps := by
  obtain ⟨p, hp, h⟩ := except_bind_eq_ok.1 h
  split at h
  · exact .inl (ok.inj h).symm
  · exact .inr ⟨(ok.inj h).symm, p, hp, by omega⟩

lemma guarded_objectOperand (h : objectOperand t = .ok ps) : Guarded t ps := by
  obtain ⟨b, -, h⟩ := except_bind_eq_ok.1 h
  split at h
  · exact .inl (ok.inj h).symm
  · exact guarded_operand h (by decide)

lemma guarded_of_kind (ht : OfKind k (fun _ => True) t)
    (hk : k ∈ [Kind.identifier, .callExpression, .memberExpression]) : Guarded t [.tree t] := by
  obtain ⟨n, rfl, hn, -⟩ := ht
  refine .inr ⟨rfl, ?_⟩
  simp only [precedence, asNode_toTree, kind?_of_kind hn, ok_bind]
  simp only [mem_cons, not_mem_nil, or_false] at hk
  rcases hk with rfl | rfl | rfl <;> exact ⟨_, rfl, by decide⟩

lemma not_destructures {p : Nat} (hp : precedence t = .ok p) (h : assignmentLevel < p) :
    ¬ Destructures t := by
  rintro ⟨n, rfl, hn, -⟩
  have : precedence n.toTree = .ok assignmentLevel := by
    simp only [precedence, asNode_toTree, kind?_of_kind hn, ok_bind]
    rfl
  rw [this] at hp
  obtain rfl : assignmentLevel = p := by simpa using hp
  omega

def Led (t : Tree) (P : List Part → Prop) (p : Parts) : Prop :=
  ∀ ps, p = .ok ps → ∃ qs rest, ps = qs ++ rest ∧ Guarded t qs ∧ P rest

def StartsText (texts : List String) (ps : List Part) : Prop :=
  ∃ s ∈ texts, ∃ rest, ps = .text s :: rest

namespace Led

variable {α : Type} {P : List Part → Prop}

lemma bind {x : Except Fault α} {f : α → Parts} (h : ∀ a, x = .ok a → Led t P (f a)) :
    Led t P (x >>= f) := by
  intro ps hps
  obtain ⟨a, ha, hf⟩ := except_bind_eq_ok.1 hps
  exact h a ha ps hf

lemma attr {name : String} {f : Tree → Parts} (ht : n.get? name = some t) (h : Led t P (f t)) :
    Led t P (n.attr name >>= f) := by
  rw [attr_of_get? ht]
  exact h

lemma ok {qs rest : List Part} (h : Guarded t qs) (hp : P rest) (he : ps = qs ++ rest) :
    Led t P (.ok ps) := by
  rintro _ ⟨⟩
  exact ⟨qs, rest, he, h, hp⟩

end Led

lemma leads_of_led {name : String} {P : List Part → Prop} (hk : n.kind = .str k.name)
    (hs : start n = .ok (.field name)) (hn : name ≠ "type") (ht : n.get? name = some t)
    (h : Leads t) (he : Led t P (expandKind n k)) : Leads n.toTree := by
  intro cs _ hr _ _
  obtain ⟨ps, hps, hr⟩ := renders_expandKind hk hr
  obtain ⟨qs, rest, rfl, hg, -⟩ := he ps hps
  obtain ⟨as, bs, rfl, ha, -⟩ := hr.exists_of_append
  rcases hg with rfl | ⟨rfl, p, hp, hlt⟩
  · exact .inl (Bare.append (Unbraced.text ⟨'(', _, rfl, by decide⟩ as ha) bs)
  · rcases h as p ha hp (by omega) with hbare | hobject | hpattern
    · exact .inl (hbare.append bs)
    · obtain ⟨m, hm, hobject⟩ := hobject
      exact .inr (.inl ⟨m, by rw [leftmost_of_start hs hn ht, hm], hobject⟩)
    · exact absurd hpattern (not_destructures hp hlt)

lemma assignmentLevel_lt_leastLevel {op : BinaryOp} {level least : Nat}
    (h : leastLevel op.token level t = .ok least) (hl : assignmentLevel < level) :
    assignmentLevel < least := by
  unfold leastLevel at h
  simp only at h
  split at h
  · obtain ⟨b, -, h⟩ := except_bind_eq_ok.1 h
    split at h
    · obtain rfl : primaryLevel = least := ok.inj h
      decide
    · obtain rfl : level = least := ok.inj h
      exact hl
  · obtain rfl : level = least := ok.inj h
    exact hl

lemma led_binary {op : BinaryOp} (hop : n.get? "operator" = some (.str op.token))
    (ht : n.get? "left" = some t) : Led t (StartsText [" " ++ op.token ++ " "]) (binary n) := by
  have hlevel : assignmentLevel < (levelOf op).rank := by cases op <;> decide
  rw [binary, attr_of_get? hop]
  refine .bind fun _ h => ?_
  obtain rfl := ok.inj h
  rw [operatorLevel_token]
  refine .bind fun _ h => ?_
  obtain rfl := ok.inj h
  refine .attr ht (.bind fun _ _ => .bind fun least hleast => .bind fun _ _ => .bind fun qs hqs =>
    .bind fun _ _ => .ok (guarded_operand hqs (assignmentLevel_lt_leastLevel hleast ?_))
      ⟨_, .head _, _, rfl⟩ rfl)
  split
  · exact Nat.lt_add_right 2 hlevel
  · exact hlevel

lemma led_conditional (ht : n.get? "test" = some t) : Led t (StartsText [" ? "]) (conditional n) :=
  .attr ht (.bind fun _ hq => .bind fun _ _ => .bind fun _ _ => .bind fun _ _ => .bind fun _ _ =>
    .ok (guarded_operand hq (by decide)) ⟨_, .head _, _, rfl⟩ (List.append_assoc _ _ _))

lemma led_call (ht : n.get? "callee" = some t) : Led t (StartsText ["?.", "("]) (call n) := by
  refine .attr ht (.bind fun qs hq => .bind fun as ha => .ok (guarded_objectOperand hq) ?_
    (List.append_assoc _ _ _))
  obtain ⟨_, -, ha⟩ := except_bind_eq_ok.1 ha
  obtain ⟨_, -, ha⟩ := except_bind_eq_ok.1 ha
  obtain rfl := ok.inj ha
  cases (n.get "optional").truthy with
  | true => exact ⟨_, .head _, _, rfl⟩
  | false => exact ⟨_, .tail _ (.head _), _, rfl⟩

lemma led_tagged (ht : n.get? "tag" = some t) :
    Led t (fun rest => ∃ quasi, n.attr "quasi" = .ok quasi ∧ rest = [.tree quasi])
      (taggedTemplate n) :=
  .attr ht (.bind fun _ hq => .bind fun quasi hquasi =>
    .ok (guarded_operand hq (by decide)) ⟨quasi, hquasi, rfl⟩ rfl)

lemma led_member (ht : n.get? "object" = some t) :
    Led t (StartsText [".", "?.", "[", "?.["]) (member n) := by
  refine .attr ht (.bind fun qs hq => ?_)
  have hopen : (if (n.get "optional").truthy then "?.[" else "[") ∈ [".", "?.", "[", "?.["] := by
    split <;> decide
  have hpoint : (if (n.get "optional").truthy then "?." else ".") ∈ [".", "?.", "[", "?.["] := by
    split <;> decide
  simp only
  split
  · exact .bind fun _ _ => .bind fun _ _ =>
      .ok (guarded_objectOperand hq) ⟨_, hopen, _, rfl⟩ (List.append_assoc _ _ _)
  · exact .bind fun _ _ => .ok (guarded_objectOperand hq) ⟨_, hpoint, _, rfl⟩ rfl

lemma led_postfixed (hp : Field "prefix" (·.truthy = false) n) (ht : n.get? "argument" = some t) :
    Led t (fun rest => ∃ op, n.attr "operator" = .ok op ∧ rest = [.tree op]) (update n) := by
  obtain ⟨c, hc, hp⟩ := hp
  rw [update, attr_of_get? hc]
  refine .bind fun _ h => ?_
  obtain rfl := ok.inj h
  rw [hp]
  exact .attr ht (.bind fun qs hq => .bind fun op hop =>
    .ok (guarded_operand hq (by decide)) ⟨op, hop, rfl⟩ rfl)

lemma led_of_leadFields {name : String} (hmem : (k, name) ∈ leadFields)
    (ht : n.get? name = some t) : ∃ P, Led t P (expandKind n k) := by
  simp only [leadFields, mem_cons, not_mem_nil, or_false, Prod.mk.injEq] at hmem
  rcases hmem with ⟨rfl, rfl⟩ | ⟨rfl, rfl⟩ | ⟨rfl, rfl⟩ | ⟨rfl, rfl⟩
  · exact ⟨_, led_conditional ht⟩
  · exact ⟨_, led_call ht⟩
  · exact ⟨_, led_tagged ht⟩
  · exact ⟨_, led_member ht⟩

def startFields : List (Kind × String) :=
  [(Kind.assignmentExpression, "left"), (.chainExpression, "expression"),
   (.binaryExpression, "left"), (.logicalExpression, "left")] ++ leadFields

lemma start_of_kind {name : String} (hk : n.kind = .str k.name) (hmem : (k, name) ∈ startFields) :
    start n = .ok (.field name) := by
  have hall : ∀ f ∈ startFields, ∀ n : Node, n.kind? = some f.1 → start n = .ok (.field f.2) := by
    simp only [startFields, leadFields, cons_append, nil_append, forall_mem_cons]
    refine ⟨?_, ?_, ?_, ?_, ?_, ?_, ?_, ?_, by simp⟩ <;> exact fun n h => by rw [start, h]
  exact hall _ hmem n (kind?_of_kind hk)

lemma start_of_postfixed (hk : n.kind = .str Kind.updateExpression.name)
    (hp : Field "prefix" (·.truthy = false) n) : start n = .ok (.field "argument") := by
  obtain ⟨c, hc, hp⟩ := hp
  simp [start, kind?_of_kind hk, attr_of_get? hc, hp]

lemma yields_unary {op : PrefixOp} (h : n.get? "operator" = some (.str op.token)) :
    Yields (StartsWith [op.token]) (unary n) := by
  rw [unary, attr_of_get? h]
  refine .bind fun _ h => ?_
  obtain rfl := ok.inj h
  refine .bind fun _ _ => ?_
  simp only
  split
  · exact .bind fun _ _ => .bind fun _ _ => .text (.head _)
  · exact .bind fun _ _ => .bind fun _ _ => .text (.head _)

lemma yields_prefixed {op : UpdateOp} (hp : Field "prefix" (·.truthy = true) n)
    (h : n.get? "operator" = some (.str op.token)) : Yields (StartsWith [op.token]) (update n) := by
  obtain ⟨c, hc, hp⟩ := hp
  rw [update, attr_of_get? hc]
  refine .bind fun _ hb => ?_
  obtain rfl := ok.inj hb
  rw [hp, attr_of_get? h]
  refine .bind fun _ ho => ?_
  obtain rfl := ok.inj ho
  exact .bind fun _ _ => .bind fun _ _ => .string (.head _)

lemma leads_object (hk : n.kind = .str Kind.objectExpression.name) : Leads n.toTree := by
  have hs : start n = .ok .here := by rw [start, kind?_of_kind hk]
  intro cs _ _ _ _
  refine .inr (.inl ⟨n, ?_, is_iff.2 hk⟩)
  rw [toTree, leftmost, hs]

lemma assignment_eq_ok (ht : n.get? "left" = some t) (h : assignment n = .ok ps) :
    ∃ op qs, n.attr "operator" = .ok op ∧
      ps = .tree t :: .text (" " ++ op.shown ++ " ") :: qs := by
  rw [assignment, attr_of_get? ht] at h
  obtain ⟨_, hleft, h⟩ := except_bind_eq_ok.1 h
  obtain rfl := ok.inj hleft
  obtain ⟨op, hop, h⟩ := except_bind_eq_ok.1 h
  obtain ⟨_, -, h⟩ := except_bind_eq_ok.1 h
  obtain ⟨qs, -, h⟩ := except_bind_eq_ok.1 h
  obtain rfl := ok.inj h
  exact ⟨op, qs, hop, rfl⟩

lemma leads_destructuring (hk : n.kind = .str Kind.assignmentExpression.name)
    (ht : n.get? "left" = some t) (hmem : k ∈ [Kind.objectPattern, .arrayPattern])
    (hp : OfKind k (fun _ => True) t) : Leads n.toTree := by
  simp only [mem_cons, not_mem_nil, or_false] at hmem
  rcases hmem with rfl | rfl
  · exact fun _ _ _ _ _ => .inr (.inr ⟨n, rfl, hk, t, ht, hp⟩)
  · obtain ⟨m, rfl, hm, -⟩ := hp
    refine leads_of_safe hk fun ps hps cs hr => ?_
    obtain ⟨op, qs, -, rfl⟩ := assignment_eq_ok ht hps
    obtain ⟨as, bs, rfl, ha, -⟩ := hr.exists_of_cons
    obtain ⟨ps, he, ha⟩ := renders_expandKind hm ha
    exact ((yields_array m ps as he ha).bare (by decide)).append bs

theorem leads_of_expression (h : Expression t) : Leads t := by
  induction h with
  | own hk hmem => exact leads_of_safe hk (safe_of_ownKinds _ hmem)
  | object hk => exact leads_object hk
  | identifier ht hs => exact fun cs _ hr _ _ => .inl (Unbraced.name ht hs cs hr)
  | literal hk hb => exact leads_of_safe hk (safe_literal hb)
  | metaProperty hk hm hs =>
    obtain ⟨c, hc, hm⟩ := hm
    refine leads_of_safe hk ?_
    rw [expandKind, Source.metaProperty, attr_of_get? hc]
    refine .bind fun _ h => ?_
    obtain rfl := ok.inj h
    exact .bind fun _ _ => .ok (.name hm hs)
  | @unary n op hk hop =>
    have hbare : ∀ s ∈ [op.token], s.toList.head?.any (· != brace) = true := by
      cases op <;> decide
    exact leads_of_safe hk ((yields_unary hop).safe fun _ h => h.bare hbare)
  | @prefixed n op hk hp hop =>
    have hbare : ∀ s ∈ [op.token], s.toList.head?.any (· != brace) = true := by
      cases op <;> decide
    exact leads_of_safe hk ((yields_prefixed hp hop).safe fun _ h => h.bare hbare)
  | @postfixed n t hk hp ht _ ih =>
    exact leads_of_led hk (start_of_postfixed hk hp) (by decide) ht ih (led_postfixed hp ht)
  | @binary n k op t hk hmem hop ht _ ih =>
    have he : expandKind n k = Source.binary n ∧ (k, "left") ∈ startFields := by
      simp only [mem_cons, not_mem_nil, or_false] at hmem
      rcases hmem with rfl | rfl <;> exact ⟨rfl, by decide⟩
    exact leads_of_led hk (start_of_kind hk he.2) (by decide) ht ih (he.1 ▸ led_binary hop ht)
  | led hk hmem ht _ ih =>
    have hn : ∀ f ∈ leadFields, f.2 ≠ "type" := by decide
    obtain ⟨P, he⟩ := led_of_leadFields hmem ht
    exact leads_of_led hk (start_of_kind hk (mem_append_right _ hmem)) (hn _ hmem) ht ih he
  | chain hk ht hmem hkind _ ih =>
    have hs := start_of_kind hk (.tail _ (.head _))
    have hg := guarded_of_kind hkind (mem_cons_of_mem _ hmem)
    exact leads_of_led hk hs (by decide) ht ih (P := (· = [])) (.attr ht (.ok hg rfl rfl))
  | assignment hk ht hmem hkind _ ih =>
    have hs := start_of_kind hk (.head _)
    have hsub : [Kind.identifier, .memberExpression] ⊆
        [Kind.identifier, .callExpression, .memberExpression] := by decide
    have hg := guarded_of_kind hkind (hsub hmem)
    refine leads_of_led hk hs (by decide) ht ih (P := fun _ => True) fun ps hps => ?_
    obtain ⟨op, qs, -, rfl⟩ := assignment_eq_ok ht hps
    exact ⟨[.tree _], _, rfl, hg, trivial⟩
  | destructuring hk ht hmem hp => exact leads_destructuring hk ht hmem hp
  | @sequence n hk =>
    intro cs p _ hp hle
    have : precedence n.toTree = .ok sequenceLevel := by
      simp only [precedence, asNode_toTree, kind?_of_kind hk, ok_bind]
      rfl
    rw [this] at hp
    obtain rfl := ok.inj hp
    exact absurd hle (by decide)

def IsBlock : Tree → Prop := OfKind .blockStatement fun _ => True

lemma Bare.head?_ne (h : Bare cs) : cs.head? ≠ some brace := by
  obtain ⟨c, rest, rfl, hc⟩ := h
  simpa using hc

lemma exists_node_of_kind {kind : Tree} (h : t.kind = .ok kind) :
    ∃ n : Node, t = n.toTree ∧ n.kind = kind := by
  cases t with
  | node id k fields => exact ⟨⟨id, k, fields⟩, rfl, ok.inj h⟩
  | _ => exact absurd h nofun

lemma arrowBody_cases {parts : List Part} (h : arrowBody body = .ok parts) :
    IsBlock body ∨ parts = parenthesized body ∨ parts = [.tree body] ∧ ¬ StartsWithObject body ∧
      ∃ p, precedence body = .ok p ∧ assignmentLevel ≤ p := by
  obtain ⟨kind, hkind, h⟩ := except_bind_eq_ok.1 h
  split at h
  · rename_i hblock
    obtain ⟨n, rfl, rfl⟩ := exists_node_of_kind hkind
    exact .inl ⟨n, rfl, is_iff.1 hblock, trivial⟩
  obtain ⟨m, hm, h⟩ := except_bind_eq_ok.1 h
  split at h
  · exact .inr (.inl (ok.inj h).symm)
  · rename_i hobject
    obtain ⟨p, hp, h⟩ := except_bind_eq_ok.1 h
    split at h
    · exact .inr (.inl (ok.inj h).symm)
    · refine .inr (.inr ⟨(ok.inj h).symm, ?_, p, hp, by omega⟩)
      rintro ⟨m', hm', hobject'⟩
      rw [hm] at hm'
      obtain rfl := ok.inj hm'
      exact hobject hobject'

lemma arrowBody_of_isBlock (h : IsBlock body) : arrowBody body = .ok [.tree body] := by
  obtain ⟨n, rfl, hk, -⟩ := h
  simp [arrowBody, kind_toTree hk, Tree.isText, Kind.name]

lemma arrowBody_of_destructures (h : Destructures body) : arrowBody body = .ok [.tree body] := by
  obtain ⟨n, rfl, hk, t, ht, m, rfl, hm, -⟩ := h
  have hleft : leftmost n.toTree = .ok m := by
    rw [leftmost_of_start (start_of_kind hk (.head _)) (by decide) ht, toTree, leftmost, start,
      kind?_of_kind hm]
  have hprec : precedence n.toTree = .ok assignmentLevel := by
    simp only [precedence, asNode_toTree, kind?_of_kind hk, ok_bind]
    rfl
  simp [arrowBody, kind_toTree hk, Tree.isText, Kind.name, hleft, is_of_kind hm, operand,
    hprec]

lemma head?_of_object (hk : n.kind = .str k.name)
    (he : ∀ ps, expandKind n k = .ok ps → ∃ s rest, ps = .text (opening ++ s) :: rest)
    (h : Renders [.tree n.toTree] cs) : cs.head? = some brace := by
  obtain ⟨ps, hps, h⟩ := renders_expandKind hk h
  obtain ⟨s, rest, rfl⟩ := he ps hps
  obtain ⟨bs, rfl, -⟩ := h.of_text
  rw [toList_append]
  rfl

lemma head?_of_isBlock (h : IsBlock body) (hr : Renders [.tree body] cs) :
    cs.head? = some brace := by
  obtain ⟨n, rfl, hk, -⟩ := h
  refine head?_of_object hk (fun ps hps => ?_) hr
  obtain ⟨b, -, hps⟩ := except_bind_eq_ok.1 hps
  obtain ⟨xs, -, hps⟩ := except_bind_eq_ok.1 hps
  obtain rfl := ok.inj hps
  exact ⟨_, _, rfl⟩

lemma head?_of_destructures (h : Destructures body) (hr : Renders [.tree body] cs) :
    cs.head? = some brace := by
  obtain ⟨n, rfl, hk, t, ht, m, rfl, hm, -⟩ := h
  obtain ⟨ps, hps, hr⟩ := renders_expandKind hk hr
  obtain ⟨op, qs, -, rfl⟩ := assignment_eq_ok ht hps
  obtain ⟨as, bs, rfl, ha, -⟩ := hr.exists_of_cons
  have hbrace : as.head? = some brace := by
    refine head?_of_object hm (fun ps hps => ?_) ha
    obtain ⟨properties, -, hps⟩ := except_bind_eq_ok.1 hps
    split at hps
    · obtain rfl := ok.inj hps
      exact ⟨_, _, rfl⟩
    · obtain ⟨_, -, hps⟩ := except_bind_eq_ok.1 hps
      obtain rfl := ok.inj hps
      exact ⟨_, _, rfl⟩
  rw [head?_append, hbrace]
  rfl

lemma head?_arrowBody {parts : List Part} (he : IsBlock body ∨ Expression body)
    (hb : arrowBody body = .ok parts) (hr : Renders parts cs) :
    cs.head? = some brace ↔ IsBlock body ∨ Destructures body := by
  constructor
  · intro hbrace
    rcases arrowBody_cases hb with hblock | rfl | ⟨rfl, hobject, p, hp, hle⟩
    · exact .inl hblock
    · have : Bare cs := Unbraced.text ⟨'(', _, rfl, by decide⟩ cs hr
      exact absurd hbrace this.head?_ne
    · refine he.imp_right fun he => ?_
      rcases leads_of_expression he cs p hr hp hle with hbare | hstart | hpattern
      · exact absurd hbrace hbare.head?_ne
      · exact absurd hstart hobject
      · exact hpattern
  · rintro (hblock | hpattern)
    · rw [arrowBody_of_isBlock hblock] at hb
      exact head?_of_isBlock hblock (ok.inj hb ▸ hr)
    · rw [arrowBody_of_destructures hpattern] at hb
      exact head?_of_destructures hpattern (ok.inj hb ▸ hr)

/-- What is printed behind the arrow is the text of its body, in parentheses where the printer sees
the need. It starts with a brace for a block, and for an assignment to an object pattern. -/
theorem arrow_body_opens_with_brace_iff {n : Node} {body : Tree} {text : String}
    (hk : n.kind = .str Kind.arrowFunctionExpression.name) (hb : n.get? "body" = some body)
    (he : IsBlock body ∨ Expression body) (hp : print n.toTree = .ok text) :
    ∃ parts front tail, arrowBody body = .ok parts ∧ Renders parts tail ∧
      text.toList = front ++ ") => ".toList ++ tail ∧
      (tail.head? = some brace ↔ IsBlock body ∨ Destructures body) := by
  obtain ⟨cs, hr, ht⟩ := renders_of_run hp
  obtain ⟨ps, hps, hr⟩ := renders_expandKind hk hr
  obtain ⟨_, -, hps⟩ := except_bind_eq_ok.1 hps
  obtain ⟨params, -, hps⟩ := except_bind_eq_ok.1 hps
  rw [attr_of_get? hb] at hps
  obtain ⟨_, h, hps⟩ := except_bind_eq_ok.1 hps
  obtain rfl := ok.inj h
  obtain ⟨parts, hparts, hps⟩ := except_bind_eq_ok.1 hps
  obtain rfl := ok.inj hps
  obtain ⟨front, rest, rfl, -, hr⟩ := hr.exists_of_append
  obtain ⟨tail, rfl, htail⟩ := hr.of_text
  exact ⟨parts, front, tail, hparts, htail, by simpa using ht, head?_arrowBody he hparts htail⟩

def arrowOf (body : Tree) : Node :=
  ⟨0, .str "ArrowFunctionExpression", [("params", .list []), ("body", body)]⟩

def named (s : String) : Tree := .node 0 (.str "Identifier") [("name", .str s)]

def ledByObject : Tree :=
  .node 0 (.str "ConditionalExpression")
    [("test", .node 0 (.str "CallExpression")
      [("callee", .node 0 (.str "MemberExpression")
        [("object", .node 0 (.str "ObjectExpression") [("properties", .list [])]),
         ("property", named "x")]), ("arguments", .list [])]),
     ("consequent", named "a"), ("alternate", named "b")]

lemma expression_ledByObject : Expression ledByObject :=
  .led (n := ⟨_, _, _⟩) rfl (.head _) rfl
    (.led (n := ⟨_, _, _⟩) rfl (.tail _ (.head _)) rfl
      (.led (n := ⟨_, _, _⟩) rfl (.tail _ (.tail _ (.tail _ (.head _)))) rfl
        (.object (n := ⟨_, _, _⟩) rfl)))

theorem arrow_body_opens_with_brace_iff_led_by_object :
    Expression ledByObject ∧
      print (arrowOf ledByObject).toTree = .ok "() => (\x7b\x7d.x() ? a : b)" ∧
      ∃ parts front tail, arrowBody ledByObject = .ok parts ∧ Renders parts tail ∧
        "() => (\x7b\x7d.x() ? a : b)".toList = front ++ ") => ".toList ++ tail ∧
        (tail.head? = some brace ↔ IsBlock ledByObject ∨ Destructures ledByObject) :=
  ⟨expression_ledByObject, rfl,
    arrow_body_opens_with_brace_iff (n := arrowOf ledByObject) rfl rfl
      (.inr expression_ledByObject) rfl⟩

def assignedPattern : Tree :=
  .node 0 (.str "AssignmentExpression")
    [("operator", .str "="),
     ("left", .node 0 (.str "ObjectPattern") [("properties", .list [.node 0 (.str "Property")
       [("key", named "a"), ("value", named "a"), ("shorthand", .bool true)]])]),
     ("right", named "b")]

theorem arrow_of_assigned_pattern_prints_block :
    Expression assignedPattern ∧ ¬ IsBlock assignedPattern ∧
      print (arrowOf assignedPattern).toTree = .ok "() => \x7b a \x7d = b" := by
  refine ⟨?_, ?_, rfl⟩
  · exact .destructuring (n := ⟨_, _, _⟩) rfl rfl (.head _) ⟨⟨_, _, _⟩, rfl, rfl, trivial⟩
  · rintro ⟨n, hn, hk, -⟩
    obtain rfl : n = ⟨_, _, _⟩ := toTree_injective hn.symm
    simp [Kind.name] at hk

end Overload.Syntax
