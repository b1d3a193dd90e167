import Overload.Proofs.Source.Rendering
import Overload.Proofs.Syntax.Grammar
import Overload.Proofs.Syntax.Lexing

/-! What nodes print, given what is printed for their operands. -/

namespace Overload.Syntax

open Kind Source Overload.Tree

variable {n : Node} {k : Kind} {b o : Bool} {s : String} {op : BinaryOp}

def PrefixOp.isWord (op : PrefixOp) : Bool := op == .typeof || op == .void || op == .delete

lemma kind?_of_kind (h : n.kind = .str k.name) : n.kind? = some k := by
  rw [Node.kind?, h]
  exact ofName?_name k

lemma expand_of_kind (h : n.kind = .str k.name) : expand n = expandKind n k := by
  simp [expand, h, key, isKey, kind?_of_kind h]

lemma attr_of_get? {name : String} {c : Tree} (h : n.get? name = some c) : n.attr name = .ok c := by
  simp [Node.attr, h]

lemma get_of_get? {name : String} {c : Tree} (h : n.get? name = some c) : n.get name = c := by
  simp [Node.get, h]

lemma kind_toTree (h : n.kind = .str k.name) : n.toTree.kind = .ok (.str k.name) := by
  rw [Tree.kind, attr_toTree, Node.attr, Node.get?_type, h]

@[simp] lemma asNode_toTree (n : Node) : n.toTree.asNode = .ok n := rfl

lemma operatorLevel_token (op : BinaryOp) :
    operatorLevel (.str op.token) = .ok (levelOf op).rank := by
  cases op <;> rfl

lemma signsMeet_of_kind (s : String) (hk : n.kind = .str k.name)
    (hne : k ≠ .unaryExpression ∧ k ≠ .updateExpression) :
    signsMeet s n.toTree = .ok false := by
  have hamong : (str k.name).among ["UnaryExpression", "UpdateExpression"] = .ok false := by
    revert hne
    cases k <;> first | exact fun _ => rfl | simp
  simp only [signsMeet, kind_toTree hk, hamong, ok_bind]
  split <;> rfl

def Spells (t : Tree) (cs : List Char) : Prop := Renders [.tree t] cs

def SpellsAs (parts : Parts) (cs : List Char) : Prop :=
  ∃ ps, parts = .ok ps ∧ Renders ps cs

def inParens (cs : List Char) : List Char := '(' :: cs ++ [')']

variable {t u v : Tree} {cs ds es : List Char}

lemma Spells.print (h : Spells t cs) : Source.print t = .ok (String.ofList cs) :=
  print_of_renders h

lemma Spells.bare (h : Spells t cs) {parts : Parts} (hp : parts = .ok [.tree t]) :
    SpellsAs parts cs :=
  ⟨_, hp, h⟩

lemma Spells.parenthesized (h : Spells t cs) :
    SpellsAs (.ok (Source.parenthesized t)) (inParens cs) :=
  ⟨_, rfl, .text (s := "(") (h.append (.single ")"))⟩

lemma Spells.operand (h : Spells t cs) {p : Nat} (hp : precedence t = .ok p) (least : Nat) :
    SpellsAs (Source.operand t least) (if p < least then inParens cs else cs) := by
  simp only [Source.operand, hp, ok_bind]
  split
  · exact h.parenthesized
  · exact h.bare rfl

lemma Spells.objectOperand (h : Spells t cs) (hb : isNumberLiteral t = .ok b)
    {ds : List Char} (ho : SpellsAs (Source.operand t 20) ds) :
    SpellsAs (Source.objectOperand t) (if b then inParens cs else ds) := by
  simp only [Source.objectOperand, hb, ok_bind]
  split
  · exact h.parenthesized
  · exact ho

lemma spells_of_expand {kind : Kind} (hk : n.kind = .str kind.name) (ps : List Source.Part)
    (he : expandKind n kind = .ok ps) (hp : Renders ps cs) : Spells n.toTree cs :=
  .tree (by rw [expand_of_kind hk, he]) hp

lemma spells_identifier (h : OfKind .identifier (Field "name" (· = .str s)) t) :
    Spells t s.toList := by
  obtain ⟨n, rfl, hk, c, hc, rfl⟩ := h
  refine spells_of_expand hk [.tree (.str s)] ?_ (by simpa using Renders.string (s := s) .nil)
  simp [expandKind, attr_of_get? hc]

lemma spells_constant {ps : List Source.Part} (h : Constant v t)
    (hv : literalValue v = .ok ps) (hp : Renders ps cs) : Spells t cs := by
  obtain ⟨n, rfl, hk, hr, hb, rfl⟩ := h
  refine spells_of_expand hk ps ?_ hp
  change Source.literal n = _
  simp [Source.literal, hr, hb, isNull, hv]

lemma spells_unary {op : PrefixOp} (hk : n.kind = .str unaryExpression.name)
    (hop : Field "operator" (· = .str op.token) n) (ht : n.get? "argument" = some t)
    (hb : signsMeet op.token t = .ok b) (h : SpellsAs (operand t 17) cs) :
    Spells n.toTree (op.token.toList ++ ((if op.isWord || b then [' '] else []) ++ cs)) := by
  obtain ⟨c, hc, rfl⟩ := hop
  obtain ⟨ps, ho, hp⟩ := h
  have hw : Text.allLetters op.token = op.isWord := by cases op <;> rfl
  refine spells_of_expand hk (.text op.token :: textIf (op.isWord || b) " " ++ ps) ?_
    (.text ((Renders.textIf _ " ").append hp))
  change unary n = _
  simp only [unary, attr_of_get? hc, attr_of_get? ht, ok_bind, hw, hb, unaryLevel, ho]
  cases op.isWord <;> rfl

lemma spells_update {op : UpdateOp} {isBefore : Bool}
    (hk : n.kind = .str updateExpression.name) (hop : Field "operator" (· = .str op.token) n)
    (hb : Field "prefix" (·.truthy = isBefore) n) (ht : n.get? "argument" = some t)
    (h : SpellsAs (operand t (if isBefore then 17 else 20)) cs) :
    Spells n.toTree (if isBefore then op.token.toList ++ cs else cs ++ op.token.toList) := by
  obtain ⟨c, hc, rfl⟩ := hop
  obtain ⟨b, hb, htruthy⟩ := hb
  obtain ⟨ps, ho, hp⟩ := h
  cases isBefore with
  | true =>
    refine spells_of_expand hk (.tree (.str op.token) :: ps) ?_ (.string hp)
    simp at ho
    change Source.update n = _
    simp [Source.update, attr_of_get? hb, htruthy, attr_of_get? hc, attr_of_get? ht,
      unaryLevel, ho]
  | false =>
    refine spells_of_expand hk (ps ++ [Part.tree (.str op.token)]) ?_
      (hp.append (by simpa using Renders.string (s := op.token) .nil))
    simp at ho
    change Source.update n = _
    simp [Source.update, attr_of_get? hb, htruthy, attr_of_get? hc, attr_of_get? ht,
      memberLevel, ho]

lemma mixesNullish_of_operator {op op' : BinaryOp} (hop : isLogical op = true)
    (hk : n.kind =
      .str (if isLogical op' then logicalExpression else binaryExpression).name)
    (hop' : Field "operator" (· = .str op'.token) n) :
    mixesNullish op.token n.toTree =
      .ok (isLogical op && isLogical op' && (op == .nullish) != (op' == .nullish)) := by
  obtain ⟨c, hc, rfl⟩ := hop'
  have hq (op : BinaryOp) : (op.token == "??") = (op == .nullish) := by cases op <;> rfl
  simp only [mixesNullish, kind_toTree hk, attr_toTree, attr_of_get? hc, ok_bind, hop,
    isText, hq]
  cases isLogical op' <;> rfl

lemma leastLevel_of_mixes (h : isLogical op = true → mixesNullish op.token t = .ok b)
    (hb : isLogical op = false → b = false) (level : Nat) :
    leastLevel op.token level t = .ok (if b then 21 else level) := by
  have hl : Source.isLogical op.token = isLogical op := by cases op <;> rfl
  cases hop : isLogical op with
  | true =>
    simp only [leastLevel, hl, hop, h hop, ok_bind]
    cases b <;> rfl
  | false =>
    simp only [leastLevel, hl, hop, hb hop]
    rfl

lemma spells_binary {op : BinaryOp} {b b' : Bool}
    (hk : n.kind =
      .str (if isLogical op then logicalExpression else binaryExpression).name)
    (hop : Field "operator" (· = .str op.token) n) (ht : n.get? "left" = some t)
    (hu : n.get? "right" = some u)
    (hl : ∀ level, leastLevel op.token level t = .ok (if b then 21 else level))
    (hr : ∀ level, leastLevel op.token level u = .ok (if b' then 21 else level))
    (h : SpellsAs (operand t
      (if b then 21 else if op = .pow then 18 else (levelOf op).rank)) cs)
    (h' : SpellsAs (operand u
      (if b' then 21 else if op = .pow then 16 else (levelOf op).rank + 1)) ds) :
    Spells n.toTree (cs ++ ((" " ++ op.token ++ " ").toList ++ ds)) := by
  obtain ⟨c, hc, rfl⟩ := hop
  obtain ⟨ps, ho, hp⟩ := h
  obtain ⟨qs, ho', hq⟩ := h'
  refine spells_of_expand hk (ps ++ Part.text (" " ++ op.token ++ " ") :: qs) ?_
    (hp.append (.text hq))
  have hbin : expandKind n
      (if isLogical op then .logicalExpression else .binaryExpression) = binary n := by
    split <;> rfl
  have hpow : (op.token = "**") = (op = .pow) := by cases op <;> simp [BinaryOp.token]
  simp only [hbin, binary, attr_of_get? hc, attr_of_get? ht, attr_of_get? hu, ok_bind,
    operatorLevel_token, shown, hl, hr, hpow]
  by_cases h : op = .pow
  · subst h
    simp only [levelOf, Level.rank, if_true] at ho ho' ⊢
    rw [ho, ho']
    rfl
  · simp only [h, if_false] at ho ho' ⊢
    rw [ho, ho']
    rfl

lemma spells_conditional (hk : n.kind = .str conditionalExpression.name)
    (ht : n.get? "test" = some t) (hu : n.get? "consequent" = some u)
    (hv : n.get? "alternate" = some v) (hc : SpellsAs (operand t 5) cs)
    (ha : SpellsAs (operand u 3) ds) (hb : SpellsAs (operand v 3) es) :
    Spells n.toTree (cs ++ (" ? ".toList ++ (ds ++ (" : ".toList ++ es)))) := by
  obtain ⟨ps, hox, hp⟩ := hc
  obtain ⟨qs, hoy, hq⟩ := ha
  obtain ⟨rs, hoz, hr⟩ := hb
  refine spells_of_expand hk (ps ++ Part.text " ? " :: (qs ++ Part.text " : " :: rs))
    ?_ (hp.append (.text (hq.append (.text hr))))
  change conditional n = _
  simp [conditional, attr_of_get? ht, attr_of_get? hu, attr_of_get? hv,
    conditionalLevel, assignmentLevel, hox, hoy, hoz]

lemma spells_assign {op : Option BinaryOp} (hk : n.kind = .str assignmentExpression.name)
    (hop : Field "operator" (· = .str (assignToken op)) n) (ht : n.get? "left" = some t)
    (hu : n.get? "right" = some u) (h : Spells t cs) (h' : SpellsAs (operand u 3) ds) :
    Spells n.toTree (cs ++ ((" " ++ assignToken op ++ " ").toList ++ ds)) := by
  obtain ⟨c, hc, rfl⟩ := hop
  obtain ⟨qs, ho, hq⟩ := h'
  refine spells_of_expand hk (.tree t :: .text (" " ++ assignToken op ++ " ") :: qs) ?_
    (h.append (.text hq))
  change assignment n = _
  simp [assignment, attr_of_get? hc, attr_of_get? ht, attr_of_get? hu, shown,
    assignmentLevel, ho]

lemma spells_worded {kind : Kind} {least : Nat} {qs : List Source.Part}
    (hk : n.kind = .str kind.name) (h : SpellsAs (operand t least) cs)
    (hq : Renders qs ds)
    (he : ∀ ps, operand t least = .ok ps → expandKind n kind = .ok (qs ++ ps)) :
    Spells n.toTree (ds ++ cs) := by
  obtain ⟨ps, ho, hp⟩ := h
  exact spells_of_expand hk (qs ++ ps) (he ps ho) (hq.append hp)

section Lists

variable {ts : List Tree} {css : List (List Char)} (hs : List.Forall₂ PrintsItem ts css)
  (hnull : ∀ t ∈ ts, t.isNull = false)
include hs hnull

lemma spells_sequence (hk : n.kind = .str sequenceExpression.name)
    (hts : n.get? "expressions" = some (.list ts)) :
    Spells n.toTree (", ".toList.intercalate css) := by
  obtain ⟨ps, ho, hp⟩ := prints_list hs hnull
  refine spells_of_expand hk ps ?_ hp
  change Source.sequence n = _
  simp [Source.sequence, attr_of_get? hts, ho]

lemma spells_list (hts : n.get? "arguments" = some (.list ts)) :
    SpellsAs (arguments n) (inParens (", ".toList.intercalate css)) := by
  obtain ⟨ps, hc, hp⟩ := prints_list hs hnull
  refine ⟨.text "(" :: ps ++ [.text ")"], ?_, .text (s := "(") (hp.append (.single ")"))⟩
  simp [arguments, attr_of_get? hts, hc]

lemma spells_arguments (hk : n.kind = .str callExpression.name) (ht : n.get? "callee" = some t)
    (ho : Flag "optional" o n) (hts : n.get? "arguments" = some (.list ts))
    (h : SpellsAs (objectOperand t) cs) :
    Spells n.toTree (cs ++ ((if o then "?.".toList else []) ++
      inParens (", ".toList.intercalate css))) := by
  obtain ⟨ps, hob, hp⟩ := h
  obtain ⟨qs, ha, hq⟩ := spells_list hs hnull hts
  rw [Flag] at ho
  refine spells_of_expand hk (ps ++ (textIf o "?." ++ qs)) ?_
    (hp.append ((Renders.textIf o "?.").append hq))
  change call n = _
  simp [call, attr_of_get? ht, hob, ho, ha]

end Lists

lemma spells_name (hk : n.kind = .str memberExpression.name) (ht : n.get? "object" = some t)
    (ho : Flag "optional" o n) (hc : Flag "computed" false n)
    (hn : Field "property" (OfKind .identifier (Field "name" (· = .str s))) n)
    (h : SpellsAs (objectOperand t) cs) :
    Spells n.toTree (cs ++ ((if o then "?." else ".").toList ++ s.toList)) := by
  obtain ⟨u, hu, hn⟩ := hn
  rw [Flag] at ho hc
  obtain ⟨ps, hob, hp⟩ := h
  refine spells_of_expand hk (ps ++ [Part.text (if o then "?." else "."), .tree u]) ?_
    (hp.append (.text (spells_identifier hn)))
  change member n = _
  simp [member, attr_of_get? ht, attr_of_get? hu, hob, ho, hc]

lemma spells_property (hk : n.kind = .str memberExpression.name)
    (ht : n.get? "object" = some t) (ho : Flag "optional" o n) (hc : Flag "computed" true n)
    (hu : n.get? "property" = some u) (h : SpellsAs (objectOperand t) cs)
    (h' : SpellsAs (operand u 1) ds) :
    Spells n.toTree (cs ++ ((if o then "?.[" else "[").toList ++ (ds ++ "]".toList))) := by
  rw [Flag] at ho hc
  obtain ⟨ps, hob, hp⟩ := h
  obtain ⟨qs, hop, hq⟩ := h'
  refine spells_of_expand hk (ps ++ Part.text (if o then "?.[" else "[") ::
    (qs ++ [Part.text "]"])) ?_ (hp.append (.text (hq.append (.single "]"))))
  change member n = _
  simp [member, attr_of_get? ht, attr_of_get? hu, hob, hop, sequenceLevel, ho, hc]

end Overload.Syntax
