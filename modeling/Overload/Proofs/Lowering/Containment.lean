import Overload.Proofs.Lowering.Operators
import Overload.Proofs.Tree.Numbering
import Overload.Proofs.Visit.Path

/-! The trees of the operator rules contain no awaits and yields but those of their operands. -/

namespace Overload.Lowering

open Visit Overload.Tree Build

def pauses : List String := ["YieldExpression", "AwaitExpression"]

def Lacks (kind : String) (t : Tree) : Prop := t.contains kind = .ok false

variable {kind : String}

lemma lacks_of_slots (hkind : kind ∈ pauses) {n : Node} (k : Kind) (hk : n.kind = .str k.name)
    (hf : k.name ∉ pauses ++ functionKinds)
    (h : ∀ s ∈ slots n, Lacks kind s.child.toTree) : Lacks kind n.toTree := by
  rw [List.mem_append, not_or] at hf
  refine contains_of_children (childKeys_of_kind k hk) (children_nodup k).2 ?_ ?_ h
  · rw [Node.is_of_kind hk, beq_eq_false_iff_ne]
    exact fun he => hf.1 (he ▸ hkind)
  · rw [hk]
    exact congrArg Except.ok (by simpa using hf.2)

lemma lacks_built (hkind : kind ∈ pauses) (i : Nat) (k : Kind) {fields : List (String × Tree)}
    (hf : k.name ∉ pauses ++ functionKinds)
    (h : ∀ f ∈ fields, Parts (fun c => Lacks kind c.toTree) f.2) :
    Lacks kind (.node i (.str k.name) fields) :=
  lacks_of_slots (n := ⟨i, .str k.name, fields⟩) hkind k rfl hf fun _ hs =>
    slot_of_parts (P := fun c => Lacks kind c.toTree) h hs

lemma lacks_leaf (hkind : kind ∈ pauses) {n : Node} (k : Kind) (hk : n.kind = .str k.name)
    (hc : k.children = []) (hf : k.name ∉ pauses ++ functionKinds) : Lacks kind n.toTree := by
  refine lacks_of_slots hkind k hk hf fun s hs => ?_
  rw [slots_of_childKeys (childKeys_of_kind k hk), hc] at hs
  simp [slotsOf] at hs

lemma lacks_identifier (hkind : kind ∈ pauses) (name : Tree) (k : Nat) :
    Lacks kind (identifier name k).1 :=
  lacks_leaf (n := ⟨k, .str "Identifier", [("name", name)]⟩) hkind .identifier rfl rfl (by decide)

lemma lacks_literal (hkind : kind ∈ pauses) (value : Tree) (k : Nat) :
    Lacks kind (literal value k).1 :=
  lacks_leaf (n := ⟨k, .str "Literal", [("value", value)]⟩) hkind .literal rfl rfl (by decide)

lemma Lacks.parts {t : Tree} (h : Lacks kind t) : Parts (fun c => Lacks kind c.toTree) t := by
  rintro c (rfl | ⟨xs, rfl, -⟩)
  · exact h
  · cases h

lemma parts_lacks {ts : List Tree} (h : ∀ t ∈ ts, Lacks kind t) :
    Parts (fun c => Lacks kind c.toTree) (.list ts) :=
  parts_list.2 fun _ => h _

lemma lacks_call (hkind : kind ∈ pauses) {callee : Tree} {arguments : List Tree}
    (hc : Lacks kind callee) (ha : ∀ t ∈ arguments, Lacks kind t) (k : Nat) :
    Lacks kind (call callee arguments k).1 := by
  refine lacks_built hkind k .callExpression (by decide) ?_
  simp only [List.forall_mem_cons]
  exact ⟨hc.parts, parts_lacks ha, by simp⟩

lemma lacks_dispatchCall (hkind : kind ∈ pauses) {left right : Tree} (hl : Lacks kind left)
    (hr : Lacks kind right) (k : Nat) (helper : String) (token : Tree) :
    Lacks kind (dispatchCall k helper left token right) :=
  lacks_call hkind (lacks_identifier hkind _ _) (by simp [hl, hr, lacks_literal hkind]) _

lemma lacks_unaryCall (hkind : kind ∈ pauses) {argument : Tree} (ha : Lacks kind argument)
    (k : Nat) (helper : String) (token : Tree) : Lacks kind (unaryCall k helper token argument) :=
  lacks_call hkind (lacks_identifier hkind _ _) (by simp [ha, lacks_literal hkind]) _

lemma lacks_assigned (hkind : kind ∈ pauses) {value : Tree} (hv : Lacks kind value) (k : Nat)
    (helper : String) (name token : Tree) : Lacks kind (assigned k helper name token value) := by
  refine lacks_built hkind (k + 5) .assignmentExpression (by decide) ?_
  simp only [List.forall_mem_cons]
  exact ⟨by simp, (lacks_identifier hkind _ _).parts,
    (lacks_dispatchCall hkind (lacks_identifier hkind _ _) hv ..).parts, by simp⟩

lemma lacks_block (hkind : kind ∈ pauses) {body : List Tree} (h : ∀ t ∈ body, Lacks kind t)
    (k : Nat) : Lacks kind (block body k).1 :=
  lacks_built hkind k .blockStatement (by decide) (by simpa using parts_lacks h)

lemma lacks_statement (hkind : kind ∈ pauses) {t : Tree} (h : Lacks kind t) (k : Nat) :
    Lacks kind (statement t k).1 :=
  lacks_built hkind k .expressionStatement (by decide) (by simpa using h.parts)

lemma lacks_ret (hkind : kind ∈ pauses) {t : Tree} (h : Lacks kind t) (k : Nat) :
    Lacks kind (ret t k).1 :=
  lacks_built hkind k .returnStatement (by decide) (by simpa using h.parts)

lemma lacks_returnLast (hkind : kind ∈ pauses) {t : Tree} (h : Lacks kind t) (j k : Nat)
    (name : Tree) : Lacks kind (block (returnLast j t name) k).1 := by
  refine lacks_block hkind ?_ k
  simp only [returnLast, List.forall_mem_cons]
  exact ⟨lacks_statement hkind h _, lacks_ret hkind (lacks_identifier hkind _ _) _, by simp⟩

lemma lacks_returnFirst (hkind : kind ∈ pauses) {t : Tree} (h : Lacks kind t) (j k : Nat)
    (name : Tree) : Lacks kind (block (returnFirst j t name) k).1 := by
  refine lacks_block hkind ?_ k
  simp only [returnFirst, List.forall_mem_cons]
  refine ⟨lacks_built hkind (j + 5) .tryStatement (by decide) ?_, by simp⟩
  simp only [List.forall_mem_cons]
  refine ⟨(lacks_block hkind ?_ _).parts, parts_null, (lacks_block hkind ?_ _).parts, by simp⟩
  · simpa using lacks_ret hkind (lacks_identifier hkind _ _) _
  · simpa using lacks_statement hkind h _

lemma lacks_atOnce (hkind : kind ∈ pauses) (k : Nat) (body : List Tree) (isAsync : Bool) :
    Lacks kind (atOnce k body isAsync) := by
  refine lacks_call hkind ?_ (by simp) _
  refine contains_of_function (n := ⟨k + 1, .str "ArrowFunctionExpression", _⟩) ?_
    (congrArg Except.ok (show functionKinds.contains "ArrowFunctionExpression" by decide))
  rw [Node.is_of_kind rfl, beq_eq_false_iff_ne]
  rintro rfl
  revert hkind
  decide

end Overload.Lowering
