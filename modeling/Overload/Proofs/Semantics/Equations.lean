import Overload.Proofs.Lowering.Operators
import Overload.Proofs.Semantics.Interpreter
import Overload.Proofs.Visit.Search

/-! What the interpreter makes of each kind of node. -/

namespace Overload.Semantics

open Build

open Overload.Tree (fieldResults fold_toTree fieldResults_of_ne)

variable (invoke : Invoke) (h : Helpers)

lemma valueOf_bind {α : Type} (a : Exec α) (f : α → Exec Completion) :
    valueOf (a >>= f) = a >>= fun x => valueOf (f x) := by
  simp [valueOf]

lemma valueOf_normal (a : Exec Value) : valueOf (do return .normal (← a)) = a := by
  simp [valueOf]

def fieldMeanings (n : Node) : String → Option (Folded Meaning) :=
  fieldResults (nodeMeaning invoke h) (fun _ _ => throw .unsuitable) n

lemma meaning_toTree (n : Node) (mode : Mode) :
    meaning invoke h n.toTree mode = nodeMeaning invoke h n (fieldMeanings invoke h n) mode := rfl

variable {invoke h} {n : Node}

lemma single_eq {name : String} {t : Tree} (hne : name ≠ "type") (hget : n.get? name = some t)
    (mode : Mode) :
    single (fieldMeanings invoke h n) name mode = meaning invoke h t mode := by
  rw [single, fieldMeanings, fieldResults_of_ne _ _ n hne, hget]
  cases t <;> rfl

lemma several_eq {name : String} {ts : List Tree} (hne : name ≠ "type")
    (hget : n.get? name = some (.list ts)) :
    several (fieldMeanings invoke h n) name =
      pure (ts.map fun t => meaning invoke h t .evaluate) := by
  rw [several, fieldMeanings, fieldResults_of_ne _ _ n hne, hget]
  simp [Tree.folded, Function.comp_def]
  rfl

lemma evaluate_literal {t : Tree} (hk : n.kind = .str "Literal") (hv : n.get? "value" = some t) :
    evaluate invoke h n.toTree = constant t := by
  rw [evaluate, meaning_toTree, nodeMeaning, hk, Node.get, hv]
  exact valueOf_normal _

lemma variableName_eq {name : String} (hk : n.kind = .str "Identifier")
    (hn : n.get? "name" = some (.str name)) (hh : h.has name = false) :
    variableName h n.toTree = pure name := by
  have his : n.toTree.is "Identifier" = true := Node.is_iff.2 hk
  have hattr : n.toTree.attr "name" = .ok (.str name) := Visit.attr_eq_ok.2 hn
  simp [variableName, his, hattr, hh]

lemma evaluate_identifier {name : String} (hk : n.kind = .str "Identifier")
    (hn : n.get? "name" = some (.str name)) (hh : h.has name = false) :
    evaluate invoke h n.toTree = read name := by
  rw [evaluate, meaning_toTree, nodeMeaning, hk]
  simp only [variableName_eq hk hn hh, pure_bind]
  exact valueOf_normal _

lemma evaluate_assignment {name : String} {target value : Tree}
    (hk : n.kind = .str "AssignmentExpression") (ho : n.get? "operator" = some (.str "="))
    (hl : n.get? "left" = some target) (hr : n.get? "right" = some value)
    (ht : variableName h target = pure name) :
    evaluate invoke h n.toTree = (do
      let v ← evaluate invoke h value
      write name v
      return v) := by
  rw [evaluate, meaning_toTree, nodeMeaning, hk]
  simp only [Node.get, ho, hl, Option.getD_some, ht, pure_bind, single_eq (by decide) hr]
  simp [Tree.isText, valueOf, evaluate]

lemma evaluate_conditional {test consequent alternate : Node}
    (hk : n.kind = .str "ConditionalExpression") (ht : n.get? "test" = some test.toTree)
    (hc : n.get? "consequent" = some consequent.toTree)
    (ha : n.get? "alternate" = some alternate.toTree) :
    evaluate invoke h n.toTree = (do
      if ← truth (← evaluate invoke h test.toTree) then evaluate invoke h consequent.toTree
      else evaluate invoke h alternate.toTree) := by
  rw [evaluate, meaning_toTree, nodeMeaning, hk]
  simp only [single_eq (by decide) ht, single_eq (by decide) hc, single_eq (by decide) ha]
  rw [valueOf_bind]
  congr 1
  funext v
  rw [valueOf_bind]
  congr 1
  funext b
  cases b
  · exact valueOf_normal (evaluate invoke h alternate.toTree)
  · exact valueOf_normal (evaluate invoke h consequent.toTree)

lemma evaluate_sequence {ts : List Tree} (hk : n.kind = .str "SequenceExpression")
    (hs : n.get? "expressions" = some (.list ts)) :
    evaluate invoke h n.toTree = last (ts.map (evaluate invoke h)) := by
  rw [evaluate, meaning_toTree, nodeMeaning, hk]
  simp only [several_eq (by decide) hs, pure_bind, List.map_map]
  exact valueOf_normal _

lemma evaluate_call {ts : List Tree} {name : String} (hk : n.kind = .str "CallExpression")
    (hc : calleeName? (n.get "callee") = some name) (ha : n.get? "arguments" = some (.list ts)) :
    evaluate invoke h n.toTree = (do callHelper invoke h name (← ts.mapM (evaluate invoke h))) := by
  rw [evaluate, meaning_toTree, nodeMeaning, hk]
  simp only [several_eq (by decide) ha, pure_bind, hc, List.mapM_map]
  rw [← bind_assoc]
  exact valueOf_normal _

open Lowering (dispatchCall unaryCall assigned atOnce settled returnLast returnFirst)

lemma evaluate_builtLiteral (k : Nat) (t : Tree) :
    evaluate invoke h (literal t k).1 = constant t :=
  evaluate_literal (n := ⟨k, .str "Literal", [("value", t)]⟩) rfl rfl

lemma evaluate_dispatchCall {name token : String} (hb : h.binary = some name)
    (hu : h.unary ≠ some name) (k : Nat) (left right : Tree) :
    evaluate invoke h (dispatchCall k name left (.str token) right) = (do
      let a ← evaluate invoke h left
      let b ← evaluate invoke h right
      dispatched (Dispatch.binary invoke a token b)) := by
  have hcall := @evaluate_call invoke h
    ⟨k + 2, .str "CallExpression", [("callee", (identifier (.str name) k).1),
      ("arguments", .list [left, (literal (.str token) (k + 1)).1, right]),
      ("optional", .bool false)]⟩ _ name rfl rfl rfl
  refine Eq.trans hcall ?_
  simp [evaluate_builtLiteral, constant, callHelper, tokenOf, hb, hu]

lemma evaluate_unaryCall {name token : String} (hu : h.unary = some name) (k : Nat)
    (argument : Tree) : evaluate invoke h (unaryCall k name (.str token) argument) = (do
      dispatched (Dispatch.unary invoke token (← evaluate invoke h argument))) := by
  have hcall := @evaluate_call invoke h
    ⟨k + 2, .str "CallExpression", [("callee", (identifier (.str name) k).1),
      ("arguments", .list [(literal (.str token) (k + 1)).1, argument]),
      ("optional", .bool false)]⟩ _ name rfl rfl rfl
  refine Eq.trans hcall ?_
  simp [evaluate_builtLiteral, constant, callHelper, tokenOf, hu]

section Assigned

variable {helper name : String} {op : BinaryOp}

lemma evaluate_builtIdentifier (hn : h.has name = false) (k : Nat) :
    evaluate invoke h (identifier (.str name) k).1 = read name :=
  evaluate_identifier (n := ⟨k, .str "Identifier", [("name", .str name)]⟩) rfl rfl hn

lemma evaluate_assigned (hb : h.binary = some helper) (hu : h.unary ≠ some helper)
    (hn : h.has name = false) (k : Nat) (value : Tree) :
    evaluate invoke h (assigned k helper (.str name) (.str op.token) value) = (do
      return (← modify invoke op name (evaluate invoke h value)).2) := by
  have hassign := @evaluate_assignment invoke h
    ⟨k + 5, .str "AssignmentExpression", [("operator", .str "="),
      ("left", (identifier (.str name) (k + 4)).1),
      ("right", dispatchCall (k + 1) helper (identifier (.str name) k).1 (.str op.token)
        value)]⟩ name _ _ rfl rfl rfl rfl
    (variableName_eq (n := ⟨k + 4, .str "Identifier", [("name", .str name)]⟩) rfl rfl hn)
  refine Eq.trans hassign ?_
  rw [evaluate_dispatchCall hb hu, evaluate_builtIdentifier hn]
  simp [modify]

lemma write_read (v : Value) : (do write name v; read name) = (do write name v; return v) := by
  funext m
  rw [bind_def, bind_def]
  simp only [write, read, Entries.get?_set_self]
  rfl

lemma modify_read (op : BinaryOp) (operand : Exec Value) :
    (do let _ ← modify invoke op name operand; read name) = (do
      return (← modify invoke op name operand).2) := by
  simp [modify, write_read]

lemma meaning_block (k : Nat) (body : List Tree) :
    meaning invoke h (block body k).1 .evaluate =
      inOrder (body.map fun t => meaning invoke h t .evaluate) := by
  let n : Node := ⟨k, .str "BlockStatement", [("body", .list body)]⟩
  change (several (fieldMeanings invoke h n) "body" >>= inOrder) = _
  rw [several_eq (n := n) (by decide) rfl, pure_bind]

lemma meaning_try (k : Nat) (body final : Tree) :
    meaning invoke h (tryWith body .null final k).1 .evaluate =
      withFinally (meaning invoke h body .evaluate) (meaning invoke h final .evaluate) := by
  let n : Node := ⟨k, .str "TryStatement", [("block", body), ("handler", .null),
    ("finalizer", final)]⟩
  rw [← @single_eq invoke h n "block" body (by decide) rfl,
    ← @single_eq invoke h n "finalizer" final (by decide) rfl]
  rfl

lemma meaning_atOnce (k : Nat) (body : List Tree) :
    meaning invoke h (atOnce k body false) .evaluate = (do
      match ← inOrder (body.map fun t => meaning invoke h t .evaluate) with
      | .normal _ => return .normal .undefined
      | .returned v => return .normal v) := by
  let arrow : Node := ⟨k + 1, .str "ArrowFunctionExpression", [("id", .null), ("params", .list []),
    ("body", (block body k).1), ("expression", .bool false), ("generator", .bool false),
    ("async", .bool false)]⟩
  let call : Node := ⟨k + 2, .str "CallExpression", [("callee", arrow.toTree),
    ("arguments", .list []), ("optional", .bool false)]⟩
  have harrow : meaning invoke h arrow.toTree .call = (do
      match ← meaning invoke h (block body k).1 .evaluate with
      | .normal _ => return .normal .undefined
      | .returned v => return .normal v) := by
    rw [← @single_eq invoke h arrow "body" (block body k).1 (by decide) rfl]
    rfl
  have hcall : meaning invoke h call.toTree .evaluate = meaning invoke h arrow.toTree .call := by
    change (several (fieldMeanings invoke h call) "arguments" >>= fun arguments =>
      if arguments.isEmpty then single (fieldMeanings invoke h call) "callee" .call
      else throw .unsuitable) = _
    rw [several_eq (n := call) (by decide) rfl, pure_bind,
      ← @single_eq invoke h call "callee" arrow.toTree (by decide) rfl]
    rfl
  change meaning invoke h call.toTree .evaluate = _
  rw [hcall, harrow, meaning_block]

lemma meaning_statement (k : Nat) (t : Tree) :
    meaning invoke h (statement t k).1 .evaluate = (do
      return .normal (← evaluate invoke h t)) := by
  let n : Node := ⟨k, .str "ExpressionStatement", [("expression", t)]⟩
  rw [evaluate, ← @single_eq invoke h n "expression" t (by decide) rfl]
  rfl

lemma meaning_ret (k : Nat) (t : Tree) :
    meaning invoke h (ret t k).1 .evaluate = (do
      return .returned (← evaluate invoke h t)) := by
  let n : Node := ⟨k, .str "ReturnStatement", [("argument", t)]⟩
  rw [evaluate, ← @single_eq invoke h n "argument" t (by decide) rfl]
  rfl

lemma evaluate_returnLast (hb : h.binary = some helper) (hu : h.unary ≠ some helper)
    (hn : h.has name = false) (i j k : Nat) (value : Tree) :
    evaluate invoke h (settled i (returnLast j (assigned k helper (.str name) (.str op.token)
      value) (.str name)) false) = (do
        return (← modify invoke op name (evaluate invoke h value)).2) := by
  have hsettled (body : List Tree) : settled i body false = atOnce i body false := rfl
  rw [evaluate, hsettled, meaning_atOnce]
  simp only [returnLast, List.map_cons, List.map_nil, inOrder, meaning_statement, meaning_ret,
    evaluate_assigned hb hu hn, evaluate_builtIdentifier hn]
  simpa [valueOf] using modify_read op (evaluate invoke h value)

lemma get?_of_modify {operand : Exec Value} {m m' : Memory} {r : Value × Value}
    (hr : modify invoke op name operand m = (.ok r, m')) :
    Entries.get? name m.store = some r.1 := by
  obtain ⟨old, m₁, hold, hr⟩ := bind_eq_ok.1 hr
  obtain ⟨v, m₂, -, hr⟩ := bind_eq_ok.1 hr
  obtain ⟨new, m₃, -, hr⟩ := bind_eq_ok.1 hr
  obtain ⟨u, m₄, -, hr⟩ := bind_eq_ok.1 hr
  obtain rfl : (old, new) = r := Except.ok.inj (congrArg Prod.fst hr)
  unfold read at hold
  split at hold
  · rename_i w hw
    rw [hw, Except.ok.inj (congrArg Prod.fst hold)]
  · cases congrArg Prod.fst hold

lemma withFinally_modify (operand : Exec Value) :
    withFinally (do return .returned (← read name))
      (do let _ ← modify invoke op name operand; return .normal .undefined) = (do
        return .returned (← modify invoke op name operand).1) := by
  funext m
  have hread : ((do return Completion.returned (← read name) : Exec Completion) m).2 = m := by
    rw [bind_def]
    unfold read
    cases Entries.get? name m.store <;> rfl
  rw [withFinally, hread]
  simp only [bind_def]
  cases hm : modify invoke op name operand m with
  | mk r m' =>
    cases r with
    | error e => rfl
    | ok r =>
      rw [read, get?_of_modify hm]
      rfl

lemma evaluate_returnFirst (hb : h.binary = some helper) (hu : h.unary ≠ some helper)
    (hn : h.has name = false) (i j k : Nat) (value : Tree) :
    evaluate invoke h (settled i (returnFirst j (assigned k helper (.str name) (.str op.token)
      value) (.str name)) false) = (do
        return (← modify invoke op name (evaluate invoke h value)).1) := by
  have hsettled (body : List Tree) : settled i body false = atOnce i body false := rfl
  rw [evaluate, hsettled, meaning_atOnce, returnFirst]
  simp only [List.map_cons, List.map_nil, inOrder, meaning_try, meaning_block, meaning_statement,
    meaning_ret, evaluate_assigned hb hu hn, evaluate_builtIdentifier hn]
  simp only [bind_assoc, pure_bind, withFinally_modify]
  simp [valueOf]

end Assigned

end Overload.Semantics
