import Overload.Proofs.Lowering.Fixpoint

/-! Nodes with all the fields that the grammar requires of them. -/

namespace Overload.Lowering

open Visit Overload.Tree Node List

inductive Form where
  | text
  | value
  | node
  | optional
  | nodes
  | holes
  deriving DecidableEq

def Form.fits : Form → Option Tree → Bool
  | .text, some (.str s) => s != ""
  | .value, some _ => true
  | .node, some t => t.isNode
  | .optional, t => t.all fun t => t.isNull || t.isNode
  | .nodes, some (.list xs) => xs.all isNode
  | .holes, some (.list xs) => xs.all fun x => x.isNull || x.isNode
  | _, _ => false

structure Requirement where
  kind : Kind
  key : String
  form : Form
  deriving DecidableEq

def requirements : List Requirement :=
  [⟨.program, "body", .nodes⟩, ⟨.unaryExpression, "operator", .text⟩,
    ⟨.unaryExpression, "argument", .node⟩, ⟨.binaryExpression, "operator", .text⟩,
    ⟨.binaryExpression, "left", .node⟩, ⟨.binaryExpression, "right", .node⟩,
    ⟨.logicalExpression, "operator", .text⟩, ⟨.logicalExpression, "left", .node⟩,
    ⟨.logicalExpression, "right", .node⟩, ⟨.updateExpression, "operator", .text⟩,
    ⟨.updateExpression, "argument", .node⟩, ⟨.updateExpression, "prefix", .value⟩,
    ⟨.assignmentExpression, "operator", .text⟩, ⟨.assignmentExpression, "left", .node⟩,
    ⟨.assignmentExpression, "right", .node⟩, ⟨.importDeclaration, "specifiers", .nodes⟩,
    ⟨.importDeclaration, "source", .node⟩, ⟨.importSpecifier, "imported", .node⟩,
    ⟨.importSpecifier, "local", .node⟩, ⟨.importDefaultSpecifier, "local", .node⟩,
    ⟨.importNamespaceSpecifier, "local", .node⟩,
    ⟨.exportNamedDeclaration, "declaration", .optional⟩,
    ⟨.exportNamedDeclaration, "specifiers", .nodes⟩,
    ⟨.exportNamedDeclaration, "source", .optional⟩, ⟨.exportSpecifier, "local", .node⟩,
    ⟨.exportSpecifier, "exported", .node⟩, ⟨.exportDefaultDeclaration, "declaration", .node⟩,
    ⟨.exportAllDeclaration, "source", .node⟩, ⟨.exportAllDeclaration, "exported", .optional⟩,
    ⟨.functionDeclaration, "id", .optional⟩, ⟨.classDeclaration, "id", .optional⟩,
    ⟨.variableDeclaration, "declarations", .nodes⟩, ⟨.variableDeclarator, "id", .node⟩,
    ⟨.assignmentPattern, "left", .node⟩, ⟨.restElement, "argument", .node⟩,
    ⟨.objectPattern, "properties", .nodes⟩, ⟨.arrayPattern, "elements", .holes⟩,
    ⟨.property, "value", .node⟩]

def Filled (n : Node) : Prop :=
  ∀ r ∈ requirements, n.is r.kind.name = true → r.form.fits (n.get? r.key) = true

def importShapes : List Shape :=
  [⟨.importSpecifier, "local", ["Identifier"]⟩, ⟨.importDefaultSpecifier, "local", ["Identifier"]⟩]

def namedKinds : List String := ["FunctionDeclaration", "ClassDeclaration"]

structure Complete (n : Node) : Prop where
  formed : Formed n
  kind : Form.text.fits (some n.kind) = true
  filled : Filled n
  bound : ∀ shape ∈ importShapes, shape.Holds n
  named : n.is "ExportNamedDeclaration" = true →
    Parts (fun c => (∃ kind ∈ namedKinds, c.is kind = true) → Form.node.fits (c.get? "id") = true)
      (n.get "declaration")

instance : DecidablePred Filled := fun n => inferInstanceAs
  (Decidable (∀ r ∈ requirements, n.is r.kind.name = true → r.form.fits (n.get? r.key) = true))

instance : DecidablePred Complete := fun n => decidable_of_iff
  (Formed n ∧ Form.text.fits (some n.kind) = true ∧ Filled n ∧
    (∀ shape ∈ importShapes, shape.Holds n) ∧ (n.is "ExportNamedDeclaration" = true →
      Parts (fun c => (∃ kind ∈ namedKinds, c.is kind = true) →
        Form.node.fits (c.get? "id") = true) (n.get "declaration")))
  ⟨fun ⟨h₁, h₂, h₃, h₄, h₅⟩ => ⟨h₁, h₂, h₃, h₄, h₅⟩, fun ⟨h₁, h₂, h₃, h₄, h₅⟩ => ⟨h₁, h₂, h₃, h₄, h₅⟩⟩

section Forms

variable {t : Option Tree}

lemma isNode_iff {t : Tree} : t.isNode = true ↔ ∃ c : Node, t = c.toTree := by
  rw [isNode, Option.isSome_iff_exists]
  constructor
  · rintro ⟨c, hc⟩
    exact ⟨c, (toTree_of_node? hc).symm⟩
  · rintro ⟨c, rfl⟩
    exact ⟨c, rfl⟩

lemma isNull_iff {t : Tree} : t.isNull = true ↔ t = .null := by
  cases t <;> simp [isNull]

lemma fits_text (h : Form.text.fits t = true) : ∃ s, t = some (.str s) ∧ s ≠ "" := by
  unfold Form.fits at h
  split at h <;> simp_all

lemma fits_node (h : Form.node.fits t = true) : ∃ c : Node, t = some c.toTree := by
  cases t with
  | none => cases h
  | some t =>
    obtain ⟨c, rfl⟩ := isNode_iff.1 h
    exact ⟨c, rfl⟩

lemma fits_value (h : Form.value.fits t = true) : ∃ u, t = some u := by
  cases t with
  | none => cases h
  | some t => exact ⟨t, rfl⟩

lemma fits_optional {n : Node} {key : String} (h : Form.optional.fits (n.get? key) = true) :
    n.get key = .null ∨ ∃ c : Node, n.get? key = some c.toTree := by
  cases hget : n.get? key with
  | none => exact .inl (by rw [Node.get, hget]; rfl)
  | some t =>
    rw [hget] at h
    rcases Bool.or_eq_true_iff.1 (show (t.isNull || t.isNode) = true from h) with hnull | hnode
    · exact .inl (by rw [Node.get, hget]; exact isNull_iff.1 hnull)
    · obtain ⟨c, rfl⟩ := isNode_iff.1 hnode
      exact .inr ⟨c, rfl⟩

lemma fits_nodes (h : Form.nodes.fits t = true) :
    ∃ cs : List Node, t = some (.list (cs.map toTree)) := by
  cases t with
  | none => cases h
  | some t =>
    cases t with
    | list xs =>
      suffices hall : ∃ cs : List Node, xs = cs.map toTree by
        obtain ⟨cs, rfl⟩ := hall
        exact ⟨cs, rfl⟩
      replace h : xs.all isNode = true := h
      induction xs with
      | nil => exact ⟨[], rfl⟩
      | cons x xs ih =>
        rw [all_cons, Bool.and_eq_true] at h
        obtain ⟨c, rfl⟩ := isNode_iff.1 h.1
        obtain ⟨cs, rfl⟩ := ih h.2
        exact ⟨c :: cs, rfl⟩
    | _ => cases h

lemma fits_holes (h : Form.holes.fits t = true) :
    ∃ xs, t = some (.list xs) ∧ ∀ x ∈ xs, x.node? = none → x = .null := by
  cases t with
  | none => cases h
  | some t =>
    cases t with
    | list xs =>
      refine ⟨xs, rfl, fun x hx hno => ?_⟩
      have hor := all_eq_true.1 (show (xs.all fun x => x.isNull || x.isNode) = true from h) x hx
      rw [isNode, hno, Option.isSome_none, Bool.or_false] at hor
      exact isNull_iff.1 hor
    | _ => cases h

end Forms

variable {n m : Node} {p q : Progress State}

lemma seen_isNode {x y : Tree} (h : Seen Lowers x y) : y.isNode = x.isNode := by
  cases h with
  | node => rfl
  | other => rfl

lemma seen_isNull {x y : Tree} (h : Seen Lowers x y) : y.isNull = x.isNull := by
  cases h with
  | node => rfl
  | other => rfl

lemma all_seen {f : Tree → Bool} {xs ys : List Tree} (h : Forall₂ (Seen Lowers) xs ys)
    (hf : ∀ x y, Seen Lowers x y → f y = f x) : ys.all f = xs.all f := by
  induction h with
  | nil => rfl
  | cons hxy _ ih => rw [all_cons, all_cons, hf _ _ hxy, ih]

lemma fits_renewed (hr : Renewed Lowers n p m q) {key : String} (form : Form)
    (h : form.fits (n.get? key) = true) : form.fits (m.get? key) = true := by
  rcases hr.get?_cases carries_lowers key with hsame | ⟨c, d, -, -, hc, hd, -⟩ |
    ⟨xs, ys, hxs, hys, hseen⟩
  · rwa [hsame]
  · rw [hc] at h
    rw [hd]
    cases form with
    | value | node | optional => rfl
    | text | nodes | holes => cases h
  · rw [hxs] at h
    rw [hys]
    cases form with
    | value => rfl
    | text | node | optional => cases h
    | nodes =>
      refine (all_seen hseen fun x y hxy => ?_).trans h
      exact seen_isNode hxy
    | holes =>
      refine (all_seen hseen fun x y hxy => ?_).trans h
      rw [seen_isNode hxy, seen_isNull hxy]

lemma Filled.renewed (h : Filled n) (hr : Renewed Lowers n p m q) : Filled m := by
  intro r hmem hk
  rw [hr.is] at hk
  exact fits_renewed hr r.form (h r hmem hk)

lemma isNull_renewed (hr : Renewed Lowers n p m q) (key : String) :
    (m.get key).isNull = (n.get key).isNull := by
  rcases hr.get?_cases carries_lowers key with hsame | ⟨c, d, -, -, hc, hd, -⟩ |
    ⟨xs, ys, hxs, hys, -⟩
  · rw [Node.get, hsame, Node.get]
  · rw [Node.get, hd, Node.get, hc]
    rfl
  · rw [Node.get, hys, Node.get, hxs]
    rfl

lemma Lowers.cases (h : Lowers n p m q) :
    (∃ q', Renewed Lowers n p m q' ∧ ∀ kind ∈ moduleKinds, n.is kind = false) ∨
      (∃ kind ∈ operands.map (·.1), n.is kind = true) ∧
        (∃ kind ∈ operatorResults, m.kind = .str kind) ∨
      ∃ m' q' k s, Renewed Lowers n p m' q' ∧ Declared m' q'.next q'.state m.toTree k s := by
  obtain ⟨m', q', hr, hs, -⟩ := h.step
  cases hs with
  | still _ hplain => exact .inl ⟨q', hr, fun kind hmem => hr.is kind ▸ hplain kind hmem⟩
  | @operator kind keys new k s ho hk hrew =>
    obtain ⟨result, hmem, hresult⟩ := hrew.kind
    exact .inr (.inl ⟨⟨kind, mem_map_of_mem ho, hr.is kind ▸ hk⟩, result, hmem, hresult⟩)
  | @declaration new k s hd => exact .inr (.inr ⟨m', q', k, s, hr, hd⟩)

def resultKinds : List String := operatorResults ++ moduleResults

lemma Lowers.renewed_of_result (h : Lowers n p m q) {kind : String} (hk : m.is kind = true)
    (hnot : kind ∉ resultKinds) : n.is kind = true ∧ ∃ q', Renewed Lowers n p m q' := by
  have hother {result : String} (hmem : result ∈ resultKinds) (hm : m.kind = .str result) : False := by
    refine hnot ?_
    rw [is_of_kind hm, beq_iff_eq] at hk
    exact hk ▸ hmem
  rcases h.cases with ⟨q', hr, -⟩ | ⟨-, result, hmem, hm⟩ | ⟨m', q', k, s, -, hd⟩
  · exact ⟨hr.is kind ▸ hk, q', hr⟩
  · exact (hother (mem_append_left _ hmem) hm).elim
  · obtain ⟨result, hmem, hm⟩ := hd.kind_result
    exact (hother (mem_append_right _ hmem) hm).elim

lemma Lowers.kind_text (h : Lowers n p m q) (hn : ∃ kind, n.kind = .str kind) :
    ∃ kind, m.kind = .str kind := by
  rcases h.cases with ⟨q', hr, -⟩ | ⟨-, kind, -, hm⟩ | ⟨m', q', k, s, -, hd⟩
  · rwa [hr.kind]
  · exact ⟨kind, hm⟩
  · obtain ⟨kind, -, hm⟩ := hd.kind_result
    exact ⟨kind, hm⟩

namespace Complete

lemma text (h : Complete n) : ∃ kind, n.kind = .str kind := by
  obtain ⟨kind, hkind, -⟩ := fits_text h.kind
  exact ⟨kind, Option.some.inj hkind⟩

lemma childKeys (h : Complete n) : ∃ keys, n.childKeys = .ok keys := by
  obtain ⟨kind, hkind⟩ := h.text
  simp only [Node.childKeys, kind?, hkind, key, isKey, if_true, ok_bind]
  split <;> exact ⟨_, rfl⟩

end Complete

def CompleteBelow (n : Node) : Prop := ∀ k, Below n k → Complete k

namespace CompleteBelow

lemma self (h : CompleteBelow n) : Complete n := h n .refl

lemma child (h : CompleteBelow n) {s : Visit.Slot} (hs : s ∈ slots n) : CompleteBelow s.child :=
  fun k hk => h k (.head hs hk)

lemma formed (h : CompleteBelow n) : FormedBelow n := fun k hk => (h k hk).formed

lemma field (h : CompleteBelow n) (K : Kind) (hk : n.is K.name = true) {key : String}
    (hkey : key ∈ K.children) : Parts CompleteBelow (n.get key) :=
  parts_of_kind K hk hkey fun _ => h.child

lemma items (h : CompleteBelow n) (hr : Renewed Lowers n p m q) (K : Kind)
    (hk : n.is K.name = true) (key : String) (hkey : key ∈ K.children)
    (hreq : ⟨K, key, .nodes⟩ ∈ requirements) : ∃ cs ds : List Node,
      n.get? key = some (.list (cs.map toTree)) ∧
      m.get? key = some (.list (ds.map toTree)) ∧
      Forall₂ (fun c d => CompleteBelow c ∧ ∃ a b, Lowers c a d b) cs ds := by
  obtain ⟨cs, hcs⟩ := fits_nodes (h.self.filled _ hreq hk)
  obtain ⟨ds, hds, hall⟩ :=
    hr.list carries_lowers (childKeys_of_kind K (is_iff.1 hk)) hkey hcs
  have hparts := h.field K hk hkey
  rw [Node.get, hcs] at hparts
  refine ⟨cs, ds, hcs, hds, (forall₂_and_left cs ds).2 ⟨fun c hc => ?_, hall.imp ?_⟩⟩
  · exact parts_list.1 hparts c (mem_map_of_mem hc)
  · rintro c d ⟨a, b, hl, -⟩
    exact ⟨a, b, hl⟩

end CompleteBelow

end Overload.Lowering
