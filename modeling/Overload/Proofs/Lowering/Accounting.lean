import Overload.Proofs.Lowering.Done
import Overload.Proofs.Tree.Objects

/-!
What the rules do with the parts of a node: each rule uses every part at most once, and every number
that it takes for one new node.
-/

namespace Overload.Lowering

open Visit List Overload.Tree Build Except

variable {name x : Tree} {key : String} {xs : List Tree}

variable {v : View} {c : Object → Nat}

def numbered (c : Object → Nat) (k j : Nat) : Nat := ((range' k (j - k)).map fun i => c (.node i)).sum

lemma numbered_self (k : Nat) : numbered c k k = 0 := by simp [numbered]

lemma numbered_glue {k l m : Nat} (hkl : k ≤ l) (hlm : l ≤ m) :
    numbered c k l + numbered c l m = numbered c k m := by
  rw [numbered, numbered, ← List.sum_append, ← map_append, range'_glue hkl hlm]
  rfl

lemma numbered_succ {k j : Nat} (h : k ≤ j) : numbered c k (j + 1) = numbered c k j + c (.node j) := by
  rw [← numbered_glue h (Nat.le_succ j)]
  simp [numbered]

lemma numbered_one (k : Nat) : numbered c k (k + 1) = c (.node k) := by simp [numbered]

lemma numbered_two (k : Nat) : numbered c k (k + 2) = c (.node k) + c (.node (k + 1)) := by
  simp [numbered, range']

section Built

lemma isText_str (s : String) : IsText (.str s) := ⟨s, rfl⟩

lemma weight_identifier {i : Nat} (hi : v.made i = true) (hn : IsText name) :
    (identifier name i).1.weight v c = c (.node i) := by
  obtain ⟨s, rfl⟩ := hn
  simp [identifier, Build.node, weight_node, View.extent, hi, ownLists, extentWeight]

lemma weight_made {i : Nat} {kind : String} (hi : v.made i = true)
    (fields : List (String × Tree)) : (Tree.node i (.str kind) fields).weight v c =
      c (.node i) + fieldsWeight v c
        (fun name => if (kind, name) ∈ ownLists then .items else .whole) fields := by
  have hextent : v.extent i (.str kind) =
      fun name => if (kind, name) ∈ ownLists then .items else .whole := by
    funext name
    simp [View.extent, hi]
  rw [weight_node, hextent, weight_str, Nat.zero_add]

variable {k : Nat} (hv : ∀ i, k ≤ i → v.made i = true)
include hv

lemma weight_dispatchCall (helper token : String) (left right : Tree) :
    (dispatchCall k helper left (.str token) right).weight v c =
      left.weight v c + right.weight v c + numbered c k (k + 3) := by
  simp [dispatchCall, call, literal, Build.node, weight_made, hv, ownLists,
    extentWeight, weight_identifier, isText_str, numbered, range', Nat.add_assoc]
  omega

lemma weight_unaryCall (helper token : String) (argument : Tree) :
    (unaryCall k helper (.str token) argument).weight v c =
      argument.weight v c + numbered c k (k + 3) := by
  simp [unaryCall, call, literal, Build.node, weight_made, hv, ownLists,
    extentWeight, weight_identifier, isText_str, numbered, range', Nat.add_assoc]
  omega

lemma weight_assigned (hn : IsText name) (helper token : String) (value : Tree) :
    (assigned k helper name (.str token) value).weight v c =
      value.weight v c + numbered c k (k + 6) := by
  have hcall := weight_dispatchCall (c := c) (fun i hi => hv i (Nat.le_of_succ_le hi)) helper token
    (identifier name k).1 value
  simp [weight_identifier, hv, hn, numbered, range', Nat.add_assoc] at hcall
  simp [assigned, assign, Build.node, weight_made, hv, ownLists, extentWeight,
    weight_identifier, hn, numbered, range', Nat.add_assoc, hcall]
  omega

lemma weight_returnLast (hn : IsText name) (t : Tree) :
    itemsWeight v c (returnLast k t name) = t.weight v c + numbered c k (k + 3) := by
  simp [returnLast, statement, ret, Build.node, weight_made, hv, ownLists,
    extentWeight, weight_identifier, hn, numbered, range', Nat.add_assoc]
  omega

lemma weight_returnFirst (hn : IsText name) (t : Tree) :
    itemsWeight v c (returnFirst k t name) = t.weight v c + numbered c k (k + 6) := by
  simp [returnFirst, tryWith, block, statement, ret, Build.node, weight_made,
    hv, ownLists, extentWeight, weight_identifier, hn, numbered, range', Nat.add_assoc]
  omega

lemma weight_settled (body : List Tree) (isAsync : Bool) : (settled k body isAsync).weight v c =
    itemsWeight v c body + numbered c k (k + if isAsync then 4 else 3) := by
  cases isAsync with
  | true =>
    simp [settled, atOnce, await, call, arrow, block, Build.node, weight_made,
      hv, ownLists, extentWeight, numbered, range', Nat.add_assoc]
    omega
  | false =>
    simp [settled, atOnce, call, arrow, block, Build.node, weight_made, hv,
      ownLists, extentWeight, numbered, range', Nat.add_assoc]
    omega

lemma weight_calledImporter (s : State) (source : Tree) :
    (calledImporter k s source).weight v c =
      source.weight v c + numbered c k (importerEnd k s) := by
  unfold calledImporter importerEnd
  split
  · simp [await, call, Build.node, weight_made, hv, ownLists, extentWeight,
      weight_identifier, isText_str, numbered, range', Nat.add_assoc]
    omega
  · simp [call, Build.node, weight_made, hv, ownLists, extentWeight, weight_identifier,
      isText_str, numbered, range', Nat.add_assoc]
    omega

lemma weight_constantOf (id init : Tree) : (constantOf k id init).weight v c =
    id.weight v c + init.weight v c + numbered c k (k + 2) := by
  change (Tree.node (k + 1) _ [_, ("declarations", .list [Tree.node k _ _])]).weight v c = _
  simp [weight_made, hv, ownLists, extentWeight, numbered, range', Nat.add_assoc]
  omega

lemma weight_property (key value : Tree) (shorthand : Bool) :
    (property key value (.bool shorthand) (.bool false) k).1.weight v c =
      key.weight v c + value.weight v c + c (.node k) := by
  simp [property, Build.node, weight_made, hv, ownLists, extentWeight]
  omega

end Built

section Rules

variable {m : Node} {k j : Nat} {s s' : State} {t : Tree}

lemma weight_field_le (hk : key ∉ "type" :: ownNames) (hx : m.get? key = some x) :
    x.weight v c + c (.node m.id) ≤ m.toTree.weight v c := by
  have hle := m.weight_get_le (v := v) (c := c) [key] (nodup_singleton key) (by simpa using hk)
  simp only [map_cons, map_nil, sum_cons, sum_nil, Node.get, hx,
    Option.getD_some] at hle
  omega

lemma weight_pair_le {other : String} (hne : key ≠ other) (hk : key ∉ "type" :: ownNames)
    (ho : other ∉ "type" :: ownNames) {y : Tree} (hx : m.get key = x) (hy : m.get other = y) :
    x.weight v c + y.weight v c + c (.node m.id) ≤ m.toTree.weight v c := by
  have hle := m.weight_get_le (v := v) (c := c) [key, other] (by simp [hne])
    (forall_mem_cons.2 ⟨hk, forall_mem_singleton.2 ho⟩)
  simp only [map_cons, map_nil, sum_cons, sum_nil, hx, hy] at hle
  omega

lemma get_of_get? (hx : m.get? key = some x) : m.get key = x := by
  rw [Node.get, hx, Option.getD_some]

lemma Operand.weight_le {keys : List String} {value : Tree} (h : Operand m k keys name value j)
    (hv : ∀ i, k ≤ i → v.made i = true) :
    value.weight v c + c (.node m.id) ≤ m.toTree.weight v c + numbered c k j := by
  cases h with
  | one hname =>
    obtain ⟨x, hx, -⟩ := hname
    have hle := weight_field_le (v := v) (c := c) (by decide) hx
    have hone : (literal (.num (.int 1)) k).1.weight v c = numbered c k (k + 1) := by
      simp [literal, Build.node, weight_made, hv, ownLists, extentWeight, numbered_one]
    omega
  | right _ hvalue =>
    have hle := weight_field_le (v := v) (c := c) (by decide) hvalue
    omega

theorem Rewritten.weight_le {keys : List String} (h : Rewritten m k s keys t j s')
    (hv : ∀ i, k ≤ i → v.made i = true)
    (hn : ∀ key ∈ keys, ∀ name, NameIn m key name → IsText name) :
    t.weight v c + c (.node m.id) ≤ m.toTree.weight v c + numbered c k j := by
  have hname {keys : List String} {name value : Tree} {i : Nat} (h : Operand m k keys name value i)
      (hn : ∀ key ∈ keys, ∀ name, NameIn m key name → IsText name) : IsText name := by
    cases h with
    | one hname | right hname => exact hn _ (by simp) _ hname
  cases h with
  | unary ha htoken =>
    obtain ⟨token, rfl, -⟩ := among_eq_true htoken
    rw [weight_unaryCall hv]
    have hle := weight_field_le (v := v) (c := c) (by decide) ha
    omega
  | binary hl hr htoken =>
    obtain ⟨token, rfl, -⟩ := among_eq_true htoken
    rw [weight_dispatchCall hv]
    have hle := weight_pair_le (v := v) (c := c) (by decide) (by decide) (by decide)
      (get_of_get? hl) (get_of_get? hr)
    omega
  | @assign _ _ _ _ i hoperand _ htoken =>
    obtain ⟨token, rfl, -⟩ := among_eq_true htoken
    have hi := hoperand.le
    have hle := hoperand.weight_le (c := c) hv
    have hglue := numbered_glue (c := c) hi (Nat.le_add_right i 6)
    rw [weight_assigned (fun l hl => hv l (hi.trans hl)) (hname hoperand hn)]
    omega
  | @assignThenReturn _ _ _ _ i isAsync hoperand _ _ htoken =>
    obtain ⟨token, rfl, -⟩ := among_eq_true htoken
    have hi := hoperand.le
    have hle := hoperand.weight_le (c := c) hv
    have hnew (l : Nat) : ∀ l', i + l ≤ l' → v.made l' = true := fun l' hl => hv l' (by omega)
    rw [weight_settled (hnew 9), weight_returnLast (hnew 6) (hname hoperand hn),
      weight_assigned (fun l hl => hv l (hi.trans hl)) (hname hoperand hn)]
    have hassigned := numbered_glue (c := c) hi (Nat.le_add_right i 6)
    have hlast := numbered_glue (c := c) (show k ≤ i + 6 by omega) (Nat.le_add_right (i + 6) 3)
    have hcall := numbered_glue (c := c) (show k ≤ i + 9 by omega)
      (Nat.le_add_right (i + 9) (if isAsync then 4 else 3))
    rw [show i + 6 + 3 = i + 9 from rfl] at hlast ⊢
    omega
  | returnThenAssign hin htoken =>
    obtain ⟨token, rfl, -⟩ := among_eq_true htoken
    have hname := hn _ (by simp) _ hin
    have hle := (Operand.one (k := k) hin).weight_le (c := c) hv
    have hnew (l : Nat) : ∀ l', k + l ≤ l' → v.made l' = true := fun l' hl => hv l' (by omega)
    rw [weight_settled (hnew 13), weight_returnFirst (hnew 7) hname, weight_assigned (hnew 1) hname]
    have hassigned := numbered_glue (c := c) (Nat.le_add_right k 1) (Nat.le_add_right (k + 1) 6)
    have hfirst := numbered_glue (c := c) (show k ≤ k + 7 by omega) (Nat.le_add_right (k + 7) 6)
    have hcall := numbered_glue (c := c) (show k ≤ k + 13 by omega) (Nat.le_add_right (k + 13) 3)
    rw [show k + 1 + 6 = k + 7 by omega] at hassigned ⊢
    rw [show k + 7 + 6 = k + 13 from rfl] at hfirst ⊢
    rw [show k + 13 + 3 = k + 16 from rfl] at hcall
    simp only [Bool.false_eq_true, if_false]
    rw [show k + 13 + 3 = k + 16 from rfl]
    omega

end Rules

section Declarations

variable {m : Node} {k j : Nat} {s s' : State} {t : Tree}

def recorded (v : View) (c : Object → Nat) (s : State) : Nat :=
  (s.exports.map fun e => e.declaration.weight v c + e.exported.weight v c).sum

lemma recorded_of_eq (h : s'.exports = s.exports) : recorded v c s' = recorded v c s := by
  rw [recorded, h, recorded]

lemma recorded_record (declaration exported : Tree) (spread : Bool) :
    recorded v c (s.record ⟨declaration, exported, spread⟩) =
      recorded v c s + (declaration.weight v c + exported.weight v c) := by
  simp [recorded, State.record]

lemma weight_attr_le {t : Tree} (hk : key ∉ "type" :: ownNames) (h : x.attr key = .ok t) :
    t.weight v c ≤ x.weight v c := by
  obtain ⟨n, rfl, hget⟩ := attr_toTree_eq_ok h
  have hle := weight_field_le (v := v) (c := c) hk hget
  omega

lemma weight_attrs_le {t u : Tree} {other : String} (hne : key ≠ other)
    (hk : key ∉ "type" :: ownNames) (ho : other ∉ "type" :: ownNames) (ht : x.attr key = .ok t)
    (hu : x.attr other = .ok u) : t.weight v c + u.weight v c ≤ x.weight v c := by
  obtain ⟨n, rfl, hget⟩ := attr_toTree_eq_ok ht
  have hle := weight_pair_le (v := v) (c := c) hne hk ho (get_of_get? hget)
    (get_of_get? (attr_eq_ok.1 hu))
  omega

lemma Destructures.weight_le {ps : List Tree} (h : Destructures xs k ps j)
    (hv : ∀ i, k ≤ i → v.made i = true) :
    itemsWeight v c ps ≤ itemsWeight v c xs + numbered c k j := by
  induction h with
  | nil => simp
  | @default x bound xs ps k j _ hbound hrest ih =>
    have hx := weight_attr_le (v := v) (c := c) (by decide) hbound
    have hps := ih fun i hi => hv i (by omega)
    have hkey : (literal (.str "default") k).1.weight v c = c (.node k) := by
      simp [literal, Build.node, weight_made, hv, ownLists, extentWeight]
    have hglue := numbered_glue (c := c) (Nat.le_add_right k 2) hrest.le
    have htwo := numbered_two (c := c) k
    rw [itemsWeight_cons, itemsWeight_cons, plainProperty,
      weight_property fun i hi => hv i (by omega), hkey]
    omega
  | @named x key bound xs ps k j _ hkey hbound hrest ih =>
    have hx := weight_attrs_le (v := v) (c := c) (by decide) (by decide) (by decide) hkey hbound
    have hps := ih fun i hi => hv i (by omega)
    have hglue := numbered_glue (c := c) (Nat.le_add_right k 1) hrest.le
    have hone := numbered_one (c := c) k
    rw [itemsWeight_cons, itemsWeight_cons, plainProperty, weight_property hv]
    omega

lemma PassesOn.weight_le {ps : List Tree} (h : PassesOn xs k s ps j s')
    (hv : ∀ i, k ≤ i → v.made i = true) :
    itemsWeight v c ps + recorded v c s' ≤
      itemsWeight v c xs + recorded v c s + numbered c k j := by
  induction h with
  | nil => simp
  | @cons x bound exported xs ps k j s s' hbound hexported hrest ih =>
    have hx := weight_attrs_le (v := v) (c := c) (by decide) (by decide) (by decide) hbound hexported
    have hps := ih fun i hi => hv i (by omega)
    have hglue := numbered_glue (c := c) (Nat.le_add_right k 3) hrest.le
    have htwo := numbered_two (c := c) k
    have hthree : numbered c k (k + 3) = numbered c k (k + 2) + c (.node (k + 2)) :=
      numbered_succ (Nat.le_add_right k 2)
    rw [recorded_record, recorded_of_eq (exports_use ..), weight_identifier (hv _ (by omega))
      (isText_str _)] at hps
    rw [itemsWeight_cons, itemsWeight_cons, plainProperty,
      weight_property fun i hi => hv i (by omega), weight_identifier (hv _ (by omega))
      (isText_str _)]
    omega

lemma ExportsNames.le (h : ExportsNames xs k s j s') : k ≤ j := by
  induction h with
  | nil => exact Nat.le_refl _
  | cons _ _ ih => omega

lemma ExportsNames.weight_le (h : ExportsNames xs k s j s') (hv : ∀ i, k ≤ i → v.made i = true)
    (hn : ∀ x ∈ xs, ∀ name, x.attr "name" = .ok name → IsText name) :
    recorded v c s' ≤ recorded v c s + numbered c k j := by
  induction h with
  | nil => simp
  | @cons x name xs k j s s' hname hrest ih =>
    have hle := ih (fun i hi => hv i (by omega)) fun y hy => hn y (by simp [hy])
    have hcounts := hn x (by simp) name hname
    have hglue := numbered_glue (c := c) (Nat.le_add_right k 2) hrest.le
    have htwo := numbered_two (c := c) k
    rw [recorded_record, weight_identifier (hv _ (by omega)) hcounts,
      weight_identifier (hv _ (by omega)) hcounts] at hle
    omega

lemma ExportsLocals.weight_le (h : ExportsLocals xs s s') :
    recorded v c s' ≤ itemsWeight v c xs + recorded v c s := by
  induction h with
  | nil => simp
  | cons hbound hexported _ ih =>
    have hx := weight_attrs_le (v := v) (c := c) (by decide) (by decide) (by decide) hbound hexported
    rw [recorded_record] at ih
    rw [itemsWeight_cons]
    omega

theorem Declared.weight_le (h : Declared m k s t j s') (hv : ∀ i, k ≤ i → v.made i = true)
    (hn : ∀ name, Mentions m name → IsText name) :
    t.weight v c + recorded v c s' + c (.node m.id) ≤
      m.toTree.weight v c + recorded v c s + numbered c k j := by
  have hend : k ≤ importerEnd k s := le_importerEnd
  have huse (h : Helper) : recorded v c (s.use h).2 = recorded v c s := recorded_of_eq (exports_use ..)
  -- The parts of an import, and of an export from another module.
  have hparts {specifiers source : Tree} {elements : List Tree}
      (hs : m.get? "specifiers" = some specifiers) (hsource : m.get? "source" = some source)
      (he : specifiers.elements = .ok elements) : itemsWeight v c elements +
        source.weight v c + c (.node m.id) ≤ m.toTree.weight v c := by
    have hle := weight_pair_le (v := v) (c := c) (by decide) (by decide) (by decide)
      (get_of_get? hs) (get_of_get? hsource)
    have helements := weight_items_le (v := v) (c := c) he
    omega
  have hconstant {i w : Nat} {id : Tree} (source : Tree) (hi : importerEnd k s ≤ i)
      (hid : id.weight v c = w + c (.node i)) :
      (constantOf (i + 1) id (calledImporter k s source)).weight v c +
          numbered c (importerEnd k s) i = w + source.weight v c + numbered c k (i + 3) := by
    have hcall := numbered_glue (c := c) hend hi
    have hnext := numbered_succ (c := c) (hend.trans hi)
    have hrest := numbered_glue (c := c) (show k ≤ i + 1 by omega) (Nat.le_add_right (i + 1) 2)
    rw [weight_constantOf fun l hl => hv l (by omega), weight_calledImporter hv, hid]
    rw [show i + 1 + 2 = i + 3 from rfl] at hrest ⊢
    omega
  have hpattern {i : Nat} (hi : importerEnd k s ≤ i) (ps : List Tree) :
      (objectPattern ps i).1.weight v c = itemsWeight v c ps + c (.node i) := by
    simp [objectPattern, Build.node, weight_made, hv, hend.trans hi, ownLists,
      extentWeight, Nat.add_comm]
  have hempty {i : Nat} (hi : k ≤ i) : (empty i).1.weight v c = c (.node i) := by
    simp [empty, Build.node, weight_made, hv, hi]
  cases h with
  | @importAll _ source _ _ _ hm hs hsource honly hbound hname =>
    have hle := weight_field_le (v := v) (c := c) (by decide) hsource
    have hid := weight_identifier (c := c) (hv _ hend) (hn _ (.all hm hs honly hbound hname))
    have hconst := hconstant source (Nat.le_refl _) (hid.trans (Nat.zero_add _).symm)
    rw [numbered_self] at hconst
    rw [huse]
    omega
  | @importNames _ source _ ps _ _ hs hsource he hps =>
    have hle := hparts hs hsource he
    have hitems := hps.weight_le (c := c) fun i hi => hv i (hend.trans hi)
    have hconst := hconstant source hps.le (hpattern hps.le ps)
    rw [huse]
    omega
  | @exportFrom _ source _ ps _ _ _ hs hsource _ he hps =>
    have hle := hparts hs hsource he
    have hitems := hps.weight_le (c := c) fun i hi => hv i (hend.trans hi)
    have hconst := hconstant source hps.le (hpattern hps.le ps)
    rw [huse] at hitems
    omega
  | exportDeclared hm _ _ hnames hexports =>
    have hle := m.weight_get_le (v := v) (c := c) ["declaration"] (by simp) (by decide)
    have hrecords := hexports.weight_le (c := c) hv fun x hx name hname =>
      hn name (.declared hm hnames hx hname)
    simp only [map_cons, map_nil, sum_cons, sum_nil] at hle
    omega
  | @exportLocals elements _ _ _ _ he hlocals =>
    have hle := m.weight_get_le (v := v) (c := c) ["specifiers"] (by simp) (by decide)
    have hrecords := hlocals.weight_le (v := v) (c := c)
    have helements : itemsWeight v c elements ≤ (m.get "specifiers").weight v c := by
      unfold specifierElements at he
      split at he
      · exact weight_items_le he
      · obtain rfl := ok.inj he
        exact Nat.zero_le _
    have hone := numbered_one (c := c) k
    simp only [map_cons, map_nil, sum_cons, sum_nil] at hle
    rw [hempty (Nat.le_refl k)]
    omega
  | exportDefaultName hm hd hid hkind hamong _ hname =>
    have hle := weight_field_le (v := v) (c := c) (by decide) hd
    have htwo := numbered_two (c := c) k
    rw [recorded_record, weight_identifier (hv _ (Nat.le_refl k))
      (hn _ (.default hm hd hid hkind hamong hname)), weight_identifier (hv _ (Nat.le_add_right k 1))
      (isText_str _)]
    omega
  | exportDefaultValue _ hd =>
    have hle := weight_field_le (v := v) (c := c) (by decide) hd
    have htwo := numbered_two (c := c) k
    rw [recorded_record, weight_identifier (hv _ (Nat.le_refl k)) (isText_str _),
      hempty (Nat.le_add_right k 1)]
    omega
  | exportAll _ hsource =>
    have hle := weight_pair_le (v := v) (c := c) (by decide) (by decide) (by decide)
      (get_of_get? hsource) (rfl : m.get "exported" = _)
    have hone := numbered_succ (c := c) hend
    rw [recorded_record, huse, weight_calledImporter hv, hempty hend]
    omega

end Declarations

section Closing

variable {k j : Nat} {t : Tree}

lemma weight_exportProperty {e : Export} (h : exportProperty e k = (.ok t, j))
    (hd : sameNode e.exported e.declaration = false) (hv : ∀ i, k ≤ i → v.made i = true) :
    k ≤ j ∧ t.weight v c ≤
      e.declaration.weight v c + e.exported.weight v c + numbered c k j := by
  unfold exportProperty at h
  split at h
  · obtain ⟨ht, rfl⟩ := Prod.mk.inj h
    obtain rfl := ok.inj ht
    have hspread : (spread e.declaration k).1.weight v c =
        c (.node k) + e.declaration.weight v c := by
      simp [spread, Build.node, weight_made, hv, ownLists, extentWeight]
    have hone := numbered_one (c := c) k
    exact ⟨Nat.le_succ k, by rw [hspread]; change _ ≤ _ + numbered c k (k + 1); omega⟩
  · split at h
    · cases congrArg Prod.fst h
    · simp only [hd, Bool.false_eq_true, if_false] at h
      obtain ⟨key, i, hkey, h⟩ := bind_eq_ok.1 h
      obtain ⟨hkey', rfl⟩ := Prod.mk.inj hkey
      obtain rfl := ok.inj hkey'
      obtain ⟨shorthand, i, hs, h⟩ := bind_eq_ok.1 h
      obtain ⟨-, rfl⟩ := Prod.mk.inj hs
      obtain ⟨ht, rfl⟩ := Prod.mk.inj h
      obtain rfl := ok.inj ht
      have hone := numbered_one (c := c) k
      refine ⟨Nat.le_succ k, ?_⟩
      rw [weight_property hv]
      change _ ≤ _ + numbered c k (k + 1)
      omega

lemma weight_exportProperties {es : List Export} {ps : List Tree}
    (h : es.mapM exportProperty k = (.ok ps, j))
    (hd : ∀ e ∈ es, sameNode e.exported e.declaration = false)
    (hv : ∀ i, k ≤ i → v.made i = true) : k ≤ j ∧ itemsWeight v c ps ≤
      (es.map fun e => e.declaration.weight v c + e.exported.weight v c).sum + numbered c k j := by
  induction es generalizing k ps with
  | nil =>
    obtain ⟨hps, rfl⟩ := Prod.mk.inj h
    obtain rfl := ok.inj hps
    exact ⟨Nat.le_refl k, by simp⟩
  | cons e es ih =>
    rw [mapM_cons] at h
    obtain ⟨p, i, hp, h⟩ := bind_eq_ok.1 h
    obtain ⟨rest, i', hrest, h⟩ := bind_eq_ok.1 h
    obtain ⟨hps, rfl⟩ := Prod.mk.inj h
    obtain rfl := ok.inj hps
    obtain ⟨hi, hle⟩ := weight_exportProperty (c := c) hp (hd e (by simp)) hv
    obtain ⟨hj, hrestle⟩ := ih hrest (fun f hf => hd f (by simp [hf])) fun l hl => hv l (hi.trans hl)
    have hglue := numbered_glue (c := c) hi hj
    refine ⟨hi.trans hj, ?_⟩
    rw [itemsWeight_cons, map_cons, sum_cons]
    omega

lemma weight_returned {s : State} (h : returned s.exports k = (.ok t, j))
    (hd : ∀ e ∈ s.exports, sameNode e.exported e.declaration = false)
    (hv : ∀ i, k ≤ i → v.made i = true) :
    k ≤ j ∧ t.weight v c ≤ recorded v c s + numbered c k j := by
  obtain ⟨object, i, hobject, h⟩ := bind_eq_ok.1 h
  obtain ⟨ps, l, hps, hobject⟩ := bind_eq_ok.1 hobject
  obtain ⟨ht, rfl⟩ := Prod.mk.inj hobject
  obtain rfl := ok.inj ht
  obtain ⟨ht, rfl⟩ := Prod.mk.inj h
  obtain rfl := ok.inj ht
  obtain ⟨hl, hle⟩ := weight_exportProperties (c := c) hps hd hv
  have hret : (ret (objectExpression ps l).1 (l + 1)).1.weight v c =
      c (.node (l + 1)) + (c (.node l) + itemsWeight v c ps) := by
    simp [ret, objectExpression, Build.node, weight_made, hv, hl,
      Nat.le_succ_of_le hl, ownLists, extentWeight]
  have hone := numbered_succ (c := c) hl
  have htwo : numbered c k (l + 2) = numbered c k (l + 1) + c (.node (l + 1)) :=
    numbered_succ (Nat.le_succ_of_le hl)
  refine ⟨show k ≤ l + 2 by omega, ?_⟩
  change (ret (objectExpression ps l).1 (l + 1)).1.weight v c ≤
    _ + numbered c k (l + 2)
  rw [hret, recorded]
  omega

lemma Closes.weight_le {m m' : Node} {s : State} (h : Closes m k s m' j) (hc : Counted v m)
    (hm : v.made m.id = true) (hd : ∀ e ∈ s.exports, sameNode e.exported e.declaration = false)
    (hv : ∀ i, k ≤ i → v.made i = true) :
    k ≤ j ∧ m'.toTree.weight v c ≤ m.toTree.weight v c + recorded v c s + numbered c k j := by
  have hblock : (asBlock m).toTree.weight v c ≤ m.toTree.weight v c := by
    have herase := fieldsWeight_erase_le (v := v) (c := c) (e := v.extent m.id m.kind)
      "sourceType" m.fields
    have hmono : fieldsWeight v c (v.extent m.id (.str "BlockStatement"))
          (Entries.erase "sourceType" m.fields) ≤
        fieldsWeight v c (v.extent m.id m.kind) (Entries.erase "sourceType" m.fields) :=
      fieldsWeight_mono fun f _ => hc f.1 ▸ extentWeight_le _ _
    change (Tree.node m.id (.str "BlockStatement") (Entries.erase "sourceType" m.fields)).weight v c ≤ _
    rw [weight_node, Node.weight_toTree, weight_str]
    omega
  cases h with
  | plain => exact ⟨Nat.le_refl k, by omega⟩
  | @exports body t _ _ hbody ht =>
    obtain ⟨hle, hweight⟩ := weight_returned (c := c) ht hd hv
    refine ⟨hle, ?_⟩
    have hget : (asBlock m).get? "body" = some (.list body) :=
      Node.get?_of_get (by rw [get_asBlock, get_of_get? hbody]) (by simp)
    -- The list of statements is not counted any more, so it may get longer.
    have hset := fieldsWeight_set (v := v) (c := c) (e := v.extent m.id (.str "BlockStatement"))
      (by simpa [Node.get?] using hget) (.list (body ++ [t]))
    have hitems : v.extent m.id (.str "BlockStatement") "body" = .items := by
      simp [View.extent, hm, ownLists]
    rw [hitems] at hset
    change _ + itemsWeight v c body = _ + itemsWeight v c (body ++ [t]) at hset
    rw [itemsWeight_append, itemsWeight_cons, itemsWeight_nil] at hset
    rw [Node.weight_toTree] at hblock
    rw [appended, Node.set, if_neg (by decide), Node.weight_toTree]
    change _ + (_ + fieldsWeight v c (v.extent m.id (.str "BlockStatement")) _) ≤ _ at hblock
    change _ + (_ + fieldsWeight v c (v.extent m.id (.str "BlockStatement")) _) ≤ _
    dsimp only
    omega

end Closing

end Overload.Lowering
