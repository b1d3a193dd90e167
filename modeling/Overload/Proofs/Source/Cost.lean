import Mathlib.Data.Bool.Basic
import Overload.Proofs.Failing
import Overload.Proofs.Tree.Size
import Overload.Proofs.Visit.Triple
import Overload.Source.Print

/-!
The parts of a node take fewer steps to print than the node is given: a field is printed once at
most, so what the parts need is paid for by the sizes of the fields.
-/

namespace Overload.Source

open Overload.Tree Overload.Source.Part List Except

def Part.weight : Part → Nat
  | .tree (.node id kind fields) => 64 * (node id kind fields).size - 16
  | _ => 1

def cost (ps : List Part) : Nat := (ps.map Part.weight).sum

variable {n : Node} {t u : Tree} {ps : List Part} {name : String}

section Parts

@[simp, grind =]
lemma cost_nil : cost [] = 0 := rfl

@[simp, grind =]
lemma cost_cons (p : Part) (ps : List Part) : cost (p :: ps) = p.weight + cost ps := by simp [cost]

@[simp, grind =]
lemma cost_append (ps qs : List Part) : cost (ps ++ qs) = cost ps + cost qs := by simp [cost]

@[simp, grind =]
lemma weight_text (s : String) : (text s).weight = 1 := rfl

lemma weight_toTree (n : Node) : (tree n.toTree).weight = 64 * n.toTree.size - 16 := rfl

lemma Part.one_le_weight (p : Part) : 1 ≤ p.weight := by
  cases p with
  | text s => simp
  | tree t =>
    cases t with
    | node id kind fields =>
      have := (Tree.node id kind fields).one_le_size
      simp only [weight]
      omega
    | _ => exact Nat.le_refl 1

lemma weight_tree_le (t : Tree) : (tree t).weight + 16 ≤ 64 * t.size := by
  have := t.one_le_size
  cases t with
  | node id kind fields => simp only [Part.weight]; omega
  | _ => simp only [Part.weight]; omega

@[grind =]
lemma cost_textIf (c : Bool) (s : String) : cost (textIf c s) = if c then 1 else 0 := by
  cases c with
  | true | false => rfl

lemma cost_flatten (pss : List (List Part)) :
    cost pss.flatten ≤ (pss.map (cost · + 1)).sum := by
  induction pss with
  | nil => simp
  | cons ps pss ih =>
    simp only [flatten_cons, cost_append, map_cons, sum_cons]
    omega

lemma cost_intersperse (pss : List (List Part)) :
    cost (pss.intersperse [.text ", "]).flatten ≤ (pss.map (cost · + 1)).sum := by
  fun_induction intersperse with
  | case1 => simp
  | case2 => simp
  | case3 => simp at *; omega

end Parts

section Elements

def elementsCost (k : Nat) (xs : List Tree) : Nat := (xs.map fun x => (tree x).weight + k).sum

@[simp]
lemma elementsCost_nil (k : Nat) : elementsCost k [] = 0 := rfl

@[simp]
lemma elementsCost_cons (k : Nat) (x : Tree) (xs : List Tree) :
    elementsCost k (x :: xs) = (tree x).weight + k + elementsCost k xs := by simp [elementsCost]

lemma elementsCost_mono {j k : Nat} (h : j ≤ k) (xs : List Tree) :
    elementsCost j xs ≤ elementsCost k xs := by
  induction xs with
  | nil => simp
  | cons x xs ih =>
    simp only [elementsCost_cons]
    omega

lemma cost_lines (xs : List Tree) :
    cost (xs.flatMap fun x => [.tree x, .text "\n"]) = elementsCost 1 xs := by
  induction xs with
  | nil => rfl
  | cons x xs ih =>
    simp only [flatMap_cons, cost_append, ih, cost_cons, weight_text, cost_nil,
      elementsCost_cons, Nat.add_assoc, Nat.add_zero]

lemma cost_separated (xs : List Tree) :
    cost ((xs.map tree).intersperse (.text "\n")) ≤ elementsCost 1 xs := by
  induction xs with
  | nil => simp
  | cons x xs ih =>
    cases xs with
    | nil =>
      simp
    | cons y ys =>
      simp only [map_cons, intersperse_cons_cons, cost_cons, weight_text,
        elementsCost_cons] at *
      omega

lemma elementsCost_le {xs : List Tree} (h : t.elements = .ok xs) :
    elementsCost 16 xs + 64 ≤ 64 * t.size := by
  unfold elements at h
  split at h
  · rename_i ys
    obtain rfl := ok.inj h
    suffices elementsCost 16 ys ≤ 64 * sizeItems ys by rw [size]; omega
    induction ys with
    | nil => simp
    | cons y ys ih =>
      have := weight_tree_le y
      simp [sizeItems] at *
      omega
  · rename_i s
    obtain rfl := ok.inj h
    suffices ∀ cs : List Char, elementsCost 16 (cs.map ofChar) ≤ 64 * cs.length by
      have := this s.toList
      rw [size, ← String.length_toList]
      omega
    intro cs
    induction cs with
    | nil => simp
    | cons c cs ih => simp [ofChar, Part.weight] at *; omega
  · rename_i es
    obtain rfl := ok.inj h
    suffices elementsCost 16 (es.map fun e => .str e.1) ≤ 64 * Data.sizeEntries es by
      rw [size, Data.size]
      omega
    induction es with
    | nil => simp
    | cons e es ih =>
      obtain ⟨name, d⟩ := e
      have hd : 1 ≤ d.size := by cases d <;> simp only [Data.size] <;> omega
      simp [Part.weight, Data.sizeEntries] at *
      omega
  · cases h

lemma cost_mapM {f : Tree → Parts} {k : Nat}
    (hf : ∀ x ps, f x = .ok ps → cost ps ≤ (tree x).weight + k) {xs : List Tree}
    {pss : List (List Part)} (h : xs.mapM f = .ok pss) :
    (pss.map (cost · + 1)).sum ≤ elementsCost (k + 1) xs := by
  induction xs generalizing pss with
  | nil =>
    obtain rfl := ok.inj h
    simp
  | cons x xs ih =>
    rw [mapM_cons] at h
    obtain ⟨ps, hps, h⟩ := except_bind_eq_ok.1 h
    obtain ⟨rest, hrest, h⟩ := except_bind_eq_ok.1 h
    obtain rfl := ok.inj h
    have := hf x ps hps
    have := ih hrest
    simp only [map_cons, sum_cons, elementsCost_cons]
    omega

end Elements

section Emitters

def fieldSize (n : Node) (name : String) : Nat := ((n.get? name).map size).getD 0

@[grind →]
lemma fieldSize_of_attr (h : n.attr name = .ok t) :
    fieldSize n name = t.size ∧ (tree t).weight + 16 ≤ 64 * t.size :=
  ⟨by simp [fieldSize, Visit.attr_eq_ok.1 h], weight_tree_le t⟩

@[grind .]
lemma fieldSize_of_not_null (h : (n.get name).isNull = false) :
    fieldSize n name = (n.get name).size ∧
      (tree (n.get name)).weight + 16 ≤ 64 * (n.get name).size := by
  refine ⟨?_, weight_tree_le _⟩
  unfold Node.get fieldSize at *
  cases hn : n.get? name with
  | none => simp [hn, isNull] at h
  | some t => rfl

lemma fields_le (n : Node) (names : List String) (h : ("type" :: names).Nodup) :
    64 * (names.map (fieldSize n)).sum + 128 ≤ 64 * n.toTree.size := by
  obtain ⟨ht, hn⟩ := nodup_cons.1 h
  have := n.sum_size_le names hn ht
  unfold fieldSize
  omega

@[grind →]
lemma attr_of_tree (h : t.attr name = .ok u) : ∃ n : Node, t = n.toTree ∧ n.attr name = .ok u := by
  obtain ⟨n, hn, h⟩ := except_bind_eq_ok.1 h
  exact ⟨n, Visit.asNode_eq_ok.1 hn, h⟩

lemma operand_weight {least : Nat} (h : operand t least = .ok ps) :
    cost ps ≤ (tree t).weight + 2 := by
  obtain ⟨level, -, h⟩ := except_bind_eq_ok.1 h
  split at h
  all_goals
    obtain rfl := ok.inj h
    simp only [cost_cons, weight_text, cost_nil]
    omega

@[grind →]
lemma cost_operand {least : Nat} (h : operand t least = .ok ps) : cost ps + 14 ≤ 64 * t.size := by
  have := operand_weight h
  have := weight_tree_le t
  omega

@[grind →]
lemma cost_commaList (h : commaList t = .ok ps) : cost ps ≤ 64 * t.size := by
  obtain ⟨xs, hxs, h⟩ := except_bind_eq_ok.1 h
  obtain ⟨pss, hpss, h⟩ := except_bind_eq_ok.1 h
  obtain rfl := ok.inj h
  have hitem : ∀ x qs, listItem x = .ok qs → cost qs ≤ (tree x).weight + 2 := by
    intro x qs hx
    unfold listItem at hx
    split at hx
    · obtain rfl := ok.inj hx
      simp
    · exact operand_weight hx
  have hhole : cost (if lastIsHole xs then [.text ","] else []) ≤ 1 := by
    split
    all_goals simp
  have := cost_mapM hitem hpss
  have := cost_intersperse pss
  have := elementsCost_mono (by omega : 2 + 1 ≤ 16) xs
  have := elementsCost_le hxs
  rw [cost_append]
  omega

@[grind →]
lemma cost_elements {xs : List Tree} (h : t.elements = .ok xs) :
    cost (xs.flatMap fun x => [.tree x, .text "\n"]) + 64 ≤ 64 * t.size ∧
      cost ((xs.map tree).intersperse (.text "\n")) + 64 ≤ 64 * t.size := by
  have := elementsCost_mono (by omega : 1 ≤ 16) xs
  have := elementsCost_le h
  have := cost_separated xs
  have := cost_lines xs
  omega

@[grind →]
lemma cost_bracedBody (h : bracedBody t = .ok ps) : cost ps ≤ 64 * t.size := by
  obtain ⟨xs, hxs, h⟩ := except_bind_eq_ok.1 h
  obtain rfl := ok.inj h
  have := (cost_elements hxs).1
  simp only [braced, cost_append, cost_cons, weight_text, cost_nil]
  omega

lemma pure_eq_ok {α : Type} {x y : α} : (pure x : Except Fault α) = .ok y ↔ x = y := by
  simp

lemma cost_unary (h : unary n = .ok ps) : cost ps + 17 ≤ 64 * n.toTree.size := by
  have := fields_le n ["argument"] (by simp)
  simp only [unary, except_bind_eq_ok] at h
  obtain ⟨op, -, argument, ha, h⟩ := h
  split at h
  · simp only [ite_eq_iff, except_bind_eq_ok, pure_eq_ok] at h
    grind
  · cases h

lemma weight_plain (d : Data) : (tree (.plain d)).weight = 1 := by
  cases d with
  | _ => rfl

lemma weight_of_entry (h : t.entry name = .ok u) : (tree u).weight = 1 := by
  unfold entry at h
  split at h
  · split at h
    · obtain rfl := ok.inj h
      exact weight_plain _
    · cases h
  · cases h

lemma getElem?_of_index {i : Nat} (h : t.index i = .ok u) :
    (t.elements.toOption.getD [])[i]? = some u := by
  have hat {xs : List Tree} (h : at? xs i = .ok u) : xs[i]? = some u := by
    unfold at? at h
    split at h
    · rename_i x hx
      rw [hx, ok.inj h]
    · cases h
  cases t with
  | list xs => exact hat h
  | str s => exact hat h
  | _ => cases h

lemma elementsCost_drop (k i : Nat) (xs : List Tree) :
    elementsCost k (xs.drop (i + 1)) ≤ elementsCost k (xs.drop i) := by
  rw [← tail_drop]
  cases xs.drop i with
  | nil => simp
  | cons x rest => simp

lemma cost_templatePieces {qs : List Tree} {i : Nat} (h : templatePieces t qs i = .ok ps) :
    cost ps ≤ qs.length + elementsCost 2 ((t.elements.toOption.getD []).drop i) := by
  induction qs generalizing i ps with
  | nil =>
    obtain rfl := ok.inj h
    simp
  | cons q qs ih =>
    simp only [templatePieces, except_bind_eq_ok, ite_eq_iff, pure_eq_ok] at h
    obtain ⟨v, -, raw, hraw, -, -, ⟨-, x, hx, -, rfl, rest, hrest, rfl⟩ |
      ⟨-, -, rfl, rest, hrest, rfl⟩⟩ := h
    all_goals
      have := weight_of_entry hraw
      have := ih hrest
      simp only [cost_cons, cons_append, nil_append, length_cons, weight_text]
    · obtain ⟨hlt, hx⟩ := List.getElem?_eq_some_iff.1 (getElem?_of_index hx)
      rw [drop_eq_getElem_cons hlt, hx, elementsCost_cons]
      omega
    · have := elementsCost_drop 2 i (t.elements.toOption.getD [])
      omega

lemma length_le_elementsCost (xs : List Tree) : xs.length ≤ elementsCost 16 xs := by
  induction xs with
  | nil => simp
  | cons x xs ih =>
    rw [length_cons, elementsCost_cons]
    omega

lemma cost_templateLiteral (h : templateLiteral n = .ok ps) :
    cost ps + 17 ≤ 64 * n.toTree.size := by
  have := fields_le n ["quasis", "expressions"] (by simp)
  simp only [templateLiteral, except_bind_eq_ok, pure_eq_ok] at h
  obtain ⟨quasis, hq, expressions, he, xs, hxs, pieces, hp, rfl⟩ := h
  have hholes : elementsCost 2 (expressions.elements.toOption.getD []) ≤ 64 * expressions.size := by
    cases hy : expressions.elements with
    | error e => simp [Except.toOption]
    | ok ys =>
      have := elementsCost_mono (by omega : 2 ≤ 16) ys
      have := elementsCost_le hy
      simp only [Except.toOption, Option.getD_some]
      omega
  have := cost_templatePieces hp
  have := length_le_elementsCost xs
  have := elementsCost_le hxs
  rw [drop_zero] at *
  grind

@[grind →]
lemma cost_propertyKey (h : propertyKey n = .ok ps) : cost ps ≤ 64 * fieldSize n "key" := by
  simp only [propertyKey, except_bind_eq_ok, ite_eq_iff, pure_eq_ok] at h
  grind

@[grind →]
lemma cost_accessor (h : accessor t = .ok ps) : cost ps ≤ 1 := by
  simp only [accessor, except_bind_eq_ok, pure_eq_ok] at h
  grind

@[grind →]
lemma cost_tail (h : functionTail n.toTree = .ok ps) :
    cost ps + 14 ≤ 64 * (fieldSize n "params" + fieldSize n "body") := by
  simp only [functionTail, attr_toTree, except_bind_eq_ok, pure_eq_ok] at h
  grind

@[grind →]
lemma cost_functionTail (h : functionTail t = .ok ps) : cost ps + 17 ≤ 64 * t.size := by
  obtain ⟨u, hu, -⟩ := except_bind_eq_ok.1 h
  obtain ⟨n, rfl, -⟩ := attr_of_tree hu
  have := fields_le n ["params", "body"] (by simp)
  grind

@[grind →]
lemma cost_arrowBody (h : arrowBody t = .ok ps) : cost ps + 14 ≤ 64 * t.size := by
  have := weight_tree_le t
  simp only [arrowBody, parenthesized, except_bind_eq_ok, ite_eq_iff, pure_eq_ok] at h
  grind

@[grind →]
lemma cost_declarationHead (h : declarationHead n.toTree = .ok ps) :
    cost ps + 14 ≤ 64 * (fieldSize n "kind" + fieldSize n "declarations") := by
  simp only [declarationHead, attr_toTree, except_bind_eq_ok, pure_eq_ok] at h
  grind

@[grind →]
lemma cost_forHead (h : forHead t = .ok ps) :
    cost ps = 0 ∨ t.isNull = false ∧ cost ps + 14 ≤ 64 * t.size := by
  have := weight_tree_le t
  unfold forHead at h
  split at h
  · obtain rfl := ok.inj h
    exact .inl rfl
  · obtain ⟨kind, hk, h⟩ := except_bind_eq_ok.1 h
    obtain ⟨n, rfl, -⟩ := attr_of_tree hk
    have := fields_le n ["kind", "declarations"] (by simp)
    simp only [ite_eq_iff, pure_eq_ok] at h
    grind

@[grind →]
lemma cost_consequent {c : Bool} (h : consequent t c = .ok ps) : cost ps + 12 ≤ 64 * t.size := by
  have := weight_tree_le t
  simp only [consequent, braced, except_bind_eq_ok, ite_eq_iff, pure_eq_ok,
    flatMap_cons, flatMap_nil] at h
  grind

@[grind →]
lemma cost_catchClause (h : catchClause t = .ok ps) :
    cost ps = 0 ∨ t.isNull = false ∧ cost ps + 17 ≤ 64 * t.size := by
  unfold catchClause at h
  split at h
  · obtain rfl := ok.inj h
    exact .inl rfl
  · rename_i hnull
    simp only [except_bind_eq_ok, ite_eq_iff, pure_eq_ok] at h
    obtain ⟨-, -, ⟨-, -, rfl, body, hb, rfl⟩ | ⟨-, param, hp, -, rfl, body, hb, rfl⟩⟩ := h
    all_goals
      obtain ⟨n, rfl, hb⟩ := attr_of_tree hb
      have := fields_le n ["param", "body"] (by simp)
    · grind
    · rw [attr_toTree] at hp
      grind

lemma cost_switchCase (h : switchCase t = .ok ps) : cost ps ≤ (tree t).weight := by
  simp only [switchCase, except_bind_eq_ok, ite_eq_iff, pure_eq_ok] at h
  obtain ⟨-, -, ⟨-, -, rfl, body, hb, xs, hxs, rfl⟩ |
    ⟨-, test, ht, -, rfl, body, hb, xs, hxs, rfl⟩⟩ := h
  all_goals
    obtain ⟨n, rfl, hb⟩ := attr_of_tree hb
    have := fields_le n ["test", "consequent"] (by simp)
    have := (cost_elements hxs).1
    rw [weight_toTree]
  · grind
  · rw [attr_toTree] at ht
    grind

lemma cost_switchStatement (h : switchStatement n = .ok ps) :
    cost ps + 17 ≤ 64 * n.toTree.size := by
  have := fields_le n ["discriminant", "cases"] (by simp)
  simp only [switchStatement, except_bind_eq_ok, pure_eq_ok] at h
  obtain ⟨discriminant, hd, cases, hc, xs, hxs, pss, hpss, rfl⟩ := h
  have := cost_mapM (k := 0) (fun x qs => cost_switchCase) hpss
  have := cost_flatten pss
  have := elementsCost_mono (by omega : 0 + 1 ≤ 16) xs
  have := elementsCost_le hxs
  grind

lemma cost_literal (h : literal n = .ok ps) : cost ps ≤ 3 := by
  have hvalue {t : Tree} (h : literalValue t = .ok ps) : cost ps ≤ 3 := by
    unfold literalValue at h
    split at h
    all_goals cases h
    all_goals simp
  simp only [literal, except_bind_eq_ok, ite_eq_iff, pure_eq_ok] at h
  grind

variable {k : Kind}

lemma cost_primary (hk : k ∈ [.identifier, .privateIdentifier, .metaProperty,
    .taggedTemplateExpression, .arrayExpression, .arrayPattern, .objectExpression, .objectPattern,
    .spreadElement, .restElement, .assignmentPattern, .importExpression])
    (h : expandKind n k = .ok ps) : cost ps + 17 ≤ 64 * n.toTree.size := by
  have := fields_le n ["name", "meta", "property", "tag", "quasi", "elements", "properties",
    "argument", "left", "right", "source"] (by simp)
  simp only [map_cons, map_nil, sum_cons, sum_nil] at this
  simp only [mem_cons, not_mem_nil, or_false] at hk
  rcases hk with rfl | rfl | rfl | rfl | rfl | rfl | rfl | rfl | rfl | rfl | rfl | rfl
  all_goals
    simp only [expandKind, metaProperty, taggedTemplate, array, object, spread, assignmentPattern,
      importExpression, ite_eq_iff, except_bind_eq_ok, pure_eq_ok] at h
    grind

lemma cost_operator (hk : k ∈ [.updateExpression, .binaryExpression, .logicalExpression,
    .assignmentExpression, .conditionalExpression, .awaitExpression, .yieldExpression,
    .callExpression, .newExpression, .memberExpression, .sequenceExpression, .chainExpression,
    .parenthesizedExpression])
    (h : expandKind n k = .ok ps) : cost ps + 17 ≤ 64 * n.toTree.size := by
  have := fields_le n ["operator", "argument", "left", "right", "test", "consequent", "alternate",
    "callee", "arguments", "object", "property", "expressions", "expression"] (by simp)
  simp only [map_cons, map_nil, sum_cons, sum_nil] at this
  simp only [mem_cons, not_mem_nil, or_false] at hk
  rcases hk with rfl | rfl | rfl | rfl | rfl | rfl | rfl | rfl | rfl | rfl | rfl | rfl | rfl
  all_goals
    simp only [expandKind, update, binary, assignment, conditional, await, yield, call, new, member,
      sequence, objectOperand, arguments, parenthesized, ite_eq_iff, except_bind_eq_ok,
      pure_eq_ok] at h
    grind

lemma cost_definition (hk : k ∈ [.property, .functionExpression, .functionDeclaration,
    .arrowFunctionExpression, .classExpression, .classDeclaration, .classBody, .methodDefinition,
    .propertyDefinition, .staticBlock, .variableDeclaration, .variableDeclarator])
    (h : expandKind n k = .ok ps) : cost ps + 17 ≤ 64 * n.toTree.size := by
  have := fields_le n ["key", "value", "id", "params", "body", "superClass", "kind",
    "declarations", "init"] (by simp)
  simp only [map_cons, map_nil, sum_cons, sum_nil] at this
  simp only [mem_cons, not_mem_nil, or_false] at hk
  rcases hk with rfl | rfl | rfl | rfl | rfl | rfl | rfl | rfl | rfl | rfl | rfl | rfl
  all_goals
    simp only [expandKind, property, isAsync, function, optionalId, arrow, classParts, method,
      classProperty, staticBlock, variableDeclaration, variableDeclarator, ite_eq_iff,
      except_bind_eq_ok, pure_eq_ok] at h
    grind

lemma cost_statement (hk : k ∈ [.program, .expressionStatement, .blockStatement, .returnStatement,
    .throwStatement, .ifStatement, .whileStatement, .doWhileStatement, .breakStatement,
    .continueStatement, .labeledStatement, .withStatement])
    (h : expandKind n k = .ok ps) : cost ps + 17 ≤ 64 * n.toTree.size := by
  have := fields_le n ["body", "expression", "argument", "test", "consequent", "alternate", "label",
    "object"] (by simp)
  simp only [map_cons, map_nil, sum_cons, sum_nil] at this
  simp only [mem_cons, not_mem_nil, or_false] at hk
  rcases hk with rfl | rfl | rfl | rfl | rfl | rfl | rfl | rfl | rfl | rfl | rfl | rfl
  all_goals
    simp only [expandKind, program, expressionStatement, returnStatement, throwStatement,
      ifStatement, whileStatement, doWhileStatement, jump, labeled, withStatement, ok.injEq,
      ite_eq_iff, except_bind_eq_ok, pure_eq_ok] at h
    grind

lemma cost_loop (hk : k ∈ [.forStatement, .forInStatement, .forOfStatement, .tryStatement])
    (h : expandKind n k = .ok ps) : cost ps + 17 ≤ 64 * n.toTree.size := by
  have := fields_le n ["init", "test", "update", "body", "left", "right", "block", "handler",
    "finalizer"] (by simp)
  simp only [map_cons, map_nil, sum_cons, sum_nil] at this
  simp only [mem_cons, not_mem_nil, or_false] at hk
  rcases hk with rfl | rfl | rfl | rfl
  all_goals
    simp only [expandKind, forStatement, optional, forEach, tryStatement, except_bind_eq_ok,
      pure_eq_ok] at h
    grind

theorem cost_expand (h : expand n = .ok ps) : cost ps + 1 ≤ (tree n.toTree).weight := by
  suffices cost ps + 17 ≤ 64 * n.toTree.size by
    rw [weight_toTree]
    omega
  have hsize := fields_le n [] (by simp)
  obtain ⟨-, -, h⟩ := except_bind_eq_ok.1 h
  split at h
  · rename_i k _
    cases k with
    | literal =>
      have := cost_literal h
      omega
    | templateLiteral => exact cost_templateLiteral h
    | unaryExpression => exact cost_unary h
    | switchStatement => exact cost_switchStatement h
    | thisExpression | super | emptyStatement | debuggerStatement =>
      obtain rfl := ok.inj h
      simp only [cost_cons, weight_text, cost_nil]
      omega
    | _ => first
      | exact cost_primary (by decide) h
      | exact cost_operator (by decide) h
      | exact cost_definition (by decide) h
      | exact cost_statement (by decide) h
      | exact cost_loop (by decide) h
      | cases h
  · cases h

end Emitters

end Overload.Source
