import Mathlib.Algebra.BigOperators.Group.List.Lemmas
import Mathlib.Data.List.Perm.Subperm
import Overload.Proofs.Tree.Numbering
import Overload.Proofs.Visit.Sweep

/-! Nodes, lists and tables are objects: whoever holds one sees what is done to it elsewhere. -/

namespace Overload

open List Overload.Tree

variable {n : Node} {xs : List Tree} {fs : List (String × Tree)} {s : Slot}

variable {t : Tree} {name : String}

/-- What a slot can hold. A list shows which of its items are nodes, and what the others are. -/
inductive Object where
  | node (id : Nat)
  | list (shape : List (Option Tree))
  | table (entries : List (String × Data))

/-- Tells the nodes that rules made from the given ones. -/
structure View where
  made : Nat → Bool

def shape (xs : List Tree) : List (Option Tree) := xs.map fun x => if x.isNode then none else some x

/-- The fields for which rules make a list along with the node. -/
def ownLists : List (String × String) :=
  [("CallExpression", "arguments"), ("ArrowFunctionExpression", "params"),
    ("BlockStatement", "body"), ("VariableDeclaration", "declarations"),
    ("ObjectPattern", "properties"), ("ObjectExpression", "properties")]

/-- How much of a field counts: such a list is not counted, but what it holds is. -/
inductive Extent where
  | whole
  | items

def View.extent (v : View) (id : Nat) (kind : Tree) (name : String) : Extent :=
  match v.made id, kind with
  | true, .str kind => if (kind, name) ∈ ownLists then .items else .whole
  | _, _ => .whole

def Extent.of : Extent → Tree → List Object → List Object
  | .whole, _, objects => objects
  | .items, .list _, objects => objects.tail
  | .items, _, objects => objects

namespace Tree

mutual

def objects (v : View) : Tree → List Object
  | .node id kind fields =>
    .node id :: (kind.objects v ++ fieldObjects v (v.extent id kind) fields)
  | .list xs => .list (shape xs) :: itemObjects v xs
  | .object es => [.table es]
  | _ => []
termination_by structural t => t

def fieldObjects (v : View) (extent : String → Extent) : List (String × Tree) → List Object
  | [] => []
  | (name, x) :: rest => (extent name).of x (x.objects v) ++ fieldObjects v extent rest
termination_by structural fs => fs

def itemObjects (v : View) : List Tree → List Object
  | [] => []
  | x :: xs => x.objects v ++ itemObjects v xs
termination_by structural xs => xs

end

def weight (v : View) (c : Object → Nat) (t : Tree) : Nat := ((t.objects v).map c).sum

def itemsWeight (v : View) (c : Object → Nat) (xs : List Tree) : Nat := (xs.map (weight v c)).sum

def extentWeight (v : View) (c : Object → Nat) : Extent → Tree → Nat
  | .items, .list xs => itemsWeight v c xs
  | _, t => t.weight v c

def fieldsWeight (v : View) (c : Object → Nat) (extent : String → Extent)
    (fs : List (String × Tree)) : Nat :=
  (fs.map fun f => extentWeight v c (extent f.1) f.2).sum

variable {v : View} {c : Object → Nat}

lemma weight_items (xs : List Tree) :
    ((itemObjects v xs).map c).sum = itemsWeight v c xs := by
  induction xs with
  | nil => rfl
  | cons x xs ih =>
    rw [itemObjects, map_append, List.sum_append, ih]
    rfl

@[simp] lemma weight_list (xs : List Tree) : (list xs).weight v c =
    c (.list (shape xs)) + itemsWeight v c xs := by
  rw [weight, objects, map_cons, sum_cons, weight_items]

lemma weight_extent (e : Extent) (t : Tree) :
    ((e.of t (t.objects v)).map c).sum = extentWeight v c e t := by
  cases e with
  | whole => rfl
  | items =>
    cases t with
    | list xs => exact weight_items xs
    | _ => rfl

lemma weight_fields (extent : String → Extent) (fs : List (String × Tree)) :
    ((fieldObjects v extent fs).map c).sum = fieldsWeight v c extent fs := by
  induction fs with
  | nil => rfl
  | cons f fs ih =>
    rw [fieldObjects, map_append, List.sum_append, ih, weight_extent]
    rfl

lemma weight_node (id : Nat) (kind : Tree) (fs : List (String × Tree)) :
    (node id kind fs).weight v c =
      c (.node id) + (kind.weight v c + fieldsWeight v c (v.extent id kind) fs) := by
  rw [weight, objects, map_cons, sum_cons, map_append, List.sum_append, weight_fields]
  rfl

@[simp] lemma weight_null : null.weight v c = 0 := rfl

@[simp] lemma weight_str (s : String) : (str s).weight v c = 0 := rfl

@[simp] lemma weight_bool (b : Bool) : (bool b).weight v c = 0 := rfl

@[simp] lemma weight_num (n : Num) : (num n).weight v c = 0 := rfl

@[simp] lemma itemsWeight_nil : itemsWeight v c [] = 0 := rfl

@[simp] lemma itemsWeight_cons (x : Tree) (xs : List Tree) :
    itemsWeight v c (x :: xs) = x.weight v c + itemsWeight v c xs := rfl

lemma itemsWeight_append (xs ys : List Tree) :
    itemsWeight v c (xs ++ ys) = itemsWeight v c xs + itemsWeight v c ys := by
  rw [itemsWeight, map_append, List.sum_append]
  rfl

@[simp] lemma fieldsWeight_nil (extent : String → Extent) : fieldsWeight v c extent [] = 0 := rfl

@[simp] lemma fieldsWeight_cons (extent : String → Extent) (f : String × Tree)
    (fs : List (String × Tree)) : fieldsWeight v c extent (f :: fs) =
      extentWeight v c (extent f.1) f.2 + fieldsWeight v c extent fs := rfl

lemma weight_items_le (h : t.elements = .ok xs) : itemsWeight v c xs ≤ t.weight v c := by
  have htexts (xs : List Tree) (hx : ∀ x ∈ xs, x.weight v c = 0) : itemsWeight v c xs = 0 := by
    rw [itemsWeight, map_congr_left hx]
    simp
  cases t with
  | list ys =>
    obtain rfl := Except.ok.inj h
    rw [weight_list]
    omega
  | str s =>
    obtain rfl := Except.ok.inj h
    rw [htexts _ (by simp [ofChar])]
    omega
  | object es =>
    obtain rfl := Except.ok.inj h
    rw [htexts _ (by simp only [mem_map, forall_exists_index, and_imp]; rintro _ _ _ rfl; rfl)]
    omega
  | _ => cases h

section Fields

variable {e : String → Extent}

lemma fieldsWeight_erase (h : Entries.get? name fs = some t) :
    extentWeight v c (e name) t +
      fieldsWeight v c e (Entries.erase name fs) = fieldsWeight v c e fs := by
  induction fs with
  | nil => simp at h
  | cons f fs ih =>
    obtain ⟨k, x⟩ := f
    by_cases hk : k = name
    · obtain rfl : x = t := by simpa [Entries.get?, hk] using h
      simp [Entries.erase, hk]
    · simp only [Entries.get?, hk, if_false] at h
      have := ih h
      simp only [Entries.erase, hk, if_false, fieldsWeight_cons]
      omega

lemma fieldsWeight_erase_le (name : String) (fs : List (String × Tree)) :
    fieldsWeight v c e (Entries.erase name fs) ≤ fieldsWeight v c e fs := by
  induction fs with
  | nil => exact Nat.le_refl _
  | cons f fs ih =>
    obtain ⟨k, x⟩ := f
    by_cases hk : k = name
    · simp [Entries.erase, hk]
    · simp only [Entries.erase, hk, if_false, fieldsWeight_cons]
      omega

lemma fieldsWeight_set (h : Entries.get? name fs = some t) (u : Tree) :
    fieldsWeight v c e (Entries.set name u fs) + extentWeight v c (e name) t =
      fieldsWeight v c e fs + extentWeight v c (e name) u := by
  induction fs with
  | nil => simp at h
  | cons f fs ih =>
    obtain ⟨k, x⟩ := f
    by_cases hk : k = name
    · obtain rfl : x = t := by simpa [Entries.get?, hk] using h
      simp only [Entries.set, hk, if_true, fieldsWeight_cons]
      omega
    · simp only [Entries.get?, hk, if_false] at h
      have := ih h
      simp only [Entries.set, hk, if_false, fieldsWeight_cons]
      omega

lemma fieldsWeight_mono {e' : String → Extent}
    (h : ∀ f ∈ fs, extentWeight v c (e f.1) f.2 ≤ extentWeight v c (e' f.1) f.2) :
    fieldsWeight v c e fs ≤ fieldsWeight v c e' fs := by
  induction fs with
  | nil => exact Nat.le_refl _
  | cons f fs ih =>
    obtain ⟨hf, hfs⟩ := forall_mem_cons.1 h
    exact Nat.add_le_add hf (ih hfs)

lemma sum_extentWeight_le {names : List String} (hn : names.Nodup) (fs : List (String × Tree)) :
    (names.map fun name => extentWeight v c (e name) ((Entries.get? name fs).getD .null)).sum ≤
      fieldsWeight v c e fs := by
  induction names generalizing fs with
  | nil => simp
  | cons name names ih =>
    obtain ⟨hname, hn⟩ := nodup_cons.1 hn
    rw [map_cons, sum_cons]
    cases h : Entries.get? name fs with
    | none =>
      have hnull : extentWeight v c (e name) .null = 0 := by cases e name <;> rfl
      simpa [hnull] using ih hn fs
    | some t =>
      have hrest : (names.map fun other =>
            extentWeight v c (e other) ((Entries.get? other fs).getD .null)) =
          names.map fun other => extentWeight v c (e other)
            ((Entries.get? other (Entries.erase name fs)).getD .null) := by
        refine map_congr_left fun other ho => ?_
        rw [Entries.get?_erase_of_ne]
        rintro rfl
        exact hname ho
      have := ih hn (Entries.erase name fs)
      have := fieldsWeight_erase (v := v) (c := c) (e := e) h
      rw [hrest, Option.getD_some]
      omega

end Fields

lemma extentWeight_le (e : Extent) (t : Tree) : extentWeight v c e t ≤ t.weight v c := by
  cases e with
  | whole => exact Nat.le_refl _
  | items =>
    cases t with
    | list xs => rw [weight_list]; exact Nat.le_add_left ..
    | _ => exact Nat.le_refl _

end Tree

def ownNames : List String := ownLists.map (·.2)

lemma View.extent_of_other (v : View) (id : Nat) (kind : Tree) (h : name ∉ ownNames) :
    v.extent id kind name = .whole := by
  have hlist (kind : String) : (kind, name) ∉ ownLists := fun hmem =>
    h (mem_map_of_mem (f := Prod.snd) hmem)
  unfold extent
  split
  · simp [hlist]
  · rfl

lemma View.extent_of_kind (v : View) (id : Nat) {kind : String}
    (h : kind ∉ ownLists.map (·.1)) (name : String) :
    v.extent id (.str kind) name = .whole := by
  have hno : (kind, name) ∉ ownLists := fun hmem => h (mem_map_of_mem (f := Prod.fst) hmem)
  cases hm : v.made id with
  | true => simp [extent, hm, hno]
  | false => simp [extent, hm]

def Counted (v : View) (n : Node) : Prop := ∀ name, v.extent n.id n.kind name = .whole

lemma counted_of_not_made {v : View} (h : v.made n.id = false) : Counted v n := by
  intro name
  simp [View.extent, h]

namespace Node

variable {v : View} {c : Object → Nat}

lemma weight_toTree (n : Node) : n.toTree.weight v c =
    c (.node n.id) + (n.kind.weight v c + fieldsWeight v c (v.extent n.id n.kind) n.fields) :=
  weight_node ..

lemma weight_get_le (n : Node) (names : List String) (hn : names.Nodup)
    (ho : ∀ name ∈ names, name ∉ "type" :: ownNames) :
    c (.node n.id) + (names.map fun name => (n.get name).weight v c).sum ≤ n.toTree.weight v c := by
  have hget : (names.map fun name => (n.get name).weight v c) = names.map fun name =>
      extentWeight v c (v.extent n.id n.kind name) ((Entries.get? name n.fields).getD .null) := by
    refine map_congr_left fun name hmem => ?_
    obtain ⟨htype, hown⟩ := not_or.1 (mem_cons.not.1 (ho name hmem))
    rw [v.extent_of_other _ _ hown, get, get?, if_neg htype]
    rfl
  have := sum_extentWeight_le (v := v) (c := c) (e := v.extent n.id n.kind) hn n.fields
  rw [hget, weight_toTree]
  omega

lemma weight_set (hc : Counted v n) (hne : name ≠ "type") (ht : n.get? name = some t) (u : Tree) :
    (n.set name u).toTree.weight v c + t.weight v c =
      n.toTree.weight v c + u.weight v c := by
  rw [get?, if_neg hne] at ht
  have hset := fieldsWeight_set (v := v) (c := c) (e := v.extent n.id n.kind) ht u
  rw [hc name] at hset
  change _ + t.weight v c = _ + u.weight v c at hset
  rw [set, if_neg hne, weight_toTree, weight_toTree]
  dsimp only
  omega

end Node

namespace Tree

variable {v : View} {c : Object → Nat}

lemma itemsWeight_set {i : Nat} (h : xs[i]? = some t) (u : Tree) :
    itemsWeight v c (xs.set i u) + t.weight v c = itemsWeight v c xs + u.weight v c := by
  induction xs generalizing i with
  | nil => simp at h
  | cons x xs ih =>
    cases i with
    | zero =>
      obtain rfl : x = t := by simpa using h
      simp only [set_cons_zero, itemsWeight_cons]
      omega
    | succ i =>
      have := ih (by simpa using h)
      simp only [set_cons_succ, itemsWeight_cons]
      omega

lemma shape_set {i : Nat} {u : Tree} (h : xs[i]? = some t) (ht : t.isNode = true)
    (hu : u.isNode = true) : shape (xs.set i u) = shape xs := by
  obtain ⟨hi, rfl⟩ := List.getElem?_eq_some_iff.1 h
  have hi' : i < (shape xs).length := by simpa [shape] using hi
  have hnone : (shape xs)[i] = none := by simp [shape, ht]
  rw [shape, map_set, if_pos hu]
  change (shape xs).set i none = shape xs
  rw [← hnone, set_getElem_self]

end Tree

namespace Visit

variable {v : View} {c : Object → Nat}

lemma counted_fill (h : Counted v n) {key : String} (hk : key ≠ "type") (index : Option Nat)
    (child : Node) : Counted v (fill n key index child) := by
  have hkind : (Visit.fill n key index child).kind = n.kind :=
    Option.some.inj (get?_fill_of_ne (Ne.symm hk) index child)
  intro name
  rw [id_fill, hkind]
  exact h name

lemma weight_fill (h : Held n s) (hc : Counted v n) (hk : s.key ≠ "type") (d : Node) :
    (fill n s.key s.index d).toTree.weight v c + s.child.toTree.weight v c =
      n.toTree.weight v c + d.toTree.weight v c := by
  rcases held_iff.1 h with ⟨ht, hi⟩ | ⟨xs, i, hxs, hx, hi⟩
  · rw [hi, fill_none]
    exact Node.weight_set hc hk (Node.get?_of_get ht (by simp [Node.toTree])) d.toTree
  · rw [hi, fill_some d hxs (List.getElem?_eq_some_iff.1 hx).1]
    have hset := Node.weight_set (c := c) hc hk (Node.get?_of_get hxs (by simp))
      (.list (xs.set i d.toTree))
    have hitems := itemsWeight_set (v := v) (c := c) hx d.toTree
    rw [weight_list, weight_list, shape_set hx rfl rfl] at hset
    omega

end Visit

def View.all : View := ⟨fun _ => false⟩

lemma View.extent_all (id : Nat) (kind : Tree) : View.all.extent id kind = fun _ => .whole :=
  funext (counted_of_not_made (n := ⟨id, kind, []⟩) rfl)

/-- The list itself, if only its items count. -/
def Extent.own : Extent → Tree → List Object
  | .items, .list xs => [.list (shape xs)]
  | _, _ => []

namespace Tree

section Made

mutual

/-- The lists that rules make along with nodes: they stand in fields of new nodes. -/
def madeLists (v : View) : Tree → List Object
  | .node id kind fields => kind.madeLists v ++ madeFields v (v.extent id kind) fields
  | .list xs => madeItems v xs
  | _ => []
termination_by structural t => t

def madeFields (v : View) (extent : String → Extent) : List (String × Tree) → List Object
  | [] => []
  | (name, x) :: rest => (extent name).own x ++ (x.madeLists v ++ madeFields v extent rest)
termination_by structural fs => fs

def madeItems (v : View) : List Tree → List Object
  | [] => []
  | x :: xs => x.madeLists v ++ madeItems v xs
termination_by structural xs => xs

end

variable {v : View} {c : Object → Nat}

lemma weight_own (e : Extent) (t : Tree) :
    t.weight v c = extentWeight v c e t + ((e.own t).map c).sum := by
  cases e with
  | whole => rfl
  | items =>
    cases t with
    | list xs => simp [extentWeight, Extent.own, Nat.add_comm]
    | _ => rfl

mutual

lemma weight_all : (t : Tree) → t.weight .all c = t.weight v c + ((t.madeLists v).map c).sum
  | .node id kind fields => by
    have hkind := weight_all kind
    have hfields := fieldsWeight_all fields (v.extent id kind)
    rw [weight_node, weight_node, View.extent_all, madeLists, map_append, List.sum_append]
    omega
  | .list xs => by
    have hitems := itemsWeight_all xs
    rw [weight_list, weight_list, madeLists]
    omega
  | .null | .undefined | .bool _ | .num _ | .str _ | .object _ => rfl

lemma fieldsWeight_all : (fs : List (String × Tree)) → (e : String → Extent) →
    fieldsWeight .all c (fun _ => .whole) fs =
      fieldsWeight v c e fs + ((madeFields v e fs).map c).sum
  | [], _ => rfl
  | (name, x) :: fs, e => by
    have hx := weight_all x
    have hown := weight_own (v := v) (c := c) (e name) x
    have hfs := fieldsWeight_all fs e
    rw [fieldsWeight_cons, fieldsWeight_cons, madeFields, map_append, map_append, List.sum_append,
      List.sum_append]
    change x.weight .all c + _ = _
    dsimp only
    omega

lemma itemsWeight_all : (xs : List Tree) →
    itemsWeight .all c xs = itemsWeight v c xs + ((madeItems v xs).map c).sum
  | [] => rfl
  | x :: xs => by
    have hx := weight_all x
    have hxs := itemsWeight_all xs
    rw [itemsWeight_cons, itemsWeight_cons, madeItems, map_append, List.sum_append]
    omega

end

end Made

variable {v w : View}

mutual

lemma objects_plain : (d : Data) → (plain d).objects v = (plain d).objects w
  | .list xs => congrArg _ (itemObjects_plain xs)
  | .null | .undefined | .bool _ | .num _ | .str _ | .object _ => rfl

lemma itemObjects_plain : (xs : List Data) →
    itemObjects v (plainItems xs) = itemObjects w (plainItems xs)
  | [] => rfl
  | x :: xs => congrArg₂ (· ++ ·) (objects_plain x) (itemObjects_plain xs)

end

mutual

lemma objects_ofData : (d : Data) → (k : Nat) →
    (∀ i, k ≤ i → i < (ofData d k).2 → v.made i = false) →
    (ofData d k).1.objects v = (ofData d k).1.objects .all
  | .object es, k, h => by
    rw [ofData] at h ⊢
    split
    · rename_i kind hkind
      simp only [hkind] at h
      have hle := le_ofEntries es (k + 1)
      have hextent : v.extent k (plain kind) = View.all.extent k (plain kind) := by
        rw [View.extent_all]
        exact funext (counted_of_not_made (n := ⟨k, plain kind, []⟩) (h k (Nat.le_refl k) (by omega)))
      rw [objects, objects, hextent, objects_plain kind (v := v) (w := .all),
        fieldObjects_ofEntries es (k + 1) _ fun i hi hlt => h i (by omega) hlt]
    · rfl
  | .list xs, k, h => congrArg _ (itemObjects_ofItems xs k h)
  | .null, _, _ | .undefined, _, _ | .bool _, _, _ | .num _, _, _ | .str _, _, _ => rfl

lemma itemObjects_ofItems : (xs : List Data) → (k : Nat) →
    (∀ i, k ≤ i → i < (ofItems xs k).2 → v.made i = false) →
    itemObjects v (ofItems xs k).1 = itemObjects .all (ofItems xs k).1
  | [], _, _ => rfl
  | x :: xs, k, h => by
    rw [ofItems] at h ⊢
    have hx := le_ofData x k
    have hxs := le_ofItems xs (ofData x k).2
    exact congrArg₂ (· ++ ·) (objects_ofData x k fun i hi hlt => h i hi (Nat.lt_of_lt_of_le hlt hxs))
      (itemObjects_ofItems xs _ fun i hi hlt => h i (hx.trans hi) hlt)

lemma fieldObjects_ofEntries : (es : List (String × Data)) → (k : Nat) → (e : String → Extent) →
    (∀ i, k ≤ i → i < (ofEntries es k).2 → v.made i = false) →
    fieldObjects v e (ofEntries es k).1 = fieldObjects .all e (ofEntries es k).1
  | [], _, _, _ => rfl
  | (name, x) :: es, k, e, h => by
    rw [ofEntries] at h ⊢
    split
    · rename_i hname
      rw [if_pos hname] at h
      exact fieldObjects_ofEntries es k e h
    · rename_i hname
      rw [if_neg hname] at h
      have hx := le_ofData x k
      have hes := le_ofEntries es (ofData x k).2
      rw [fieldObjects, fieldObjects,
        objects_ofData x k fun i hi hlt => h i hi (Nat.lt_of_lt_of_le hlt hes),
        fieldObjects_ofEntries es _ e fun i hi hlt => h i (hx.trans hi) hlt]

end

end Tree

section Places

def Object.isNode (i : Nat) : Object → Nat
  | .node j => if j = i then 1 else 0
  | _ => 0

def Tree.places (v : View) (i : Nat) (t : Tree) : Nat := t.weight v (Object.isNode i)

section Given

variable {v : View} {i : Nat}

namespace Tree

mutual

lemma places_plain : (d : Data) → (plain d).places v i = 0
  | .list xs => by
    rw [plain, places, weight_list, itemPlaces_plain xs]
    rfl
  | .null | .undefined | .bool _ | .num _ | .str _ | .object _ => rfl

lemma itemPlaces_plain : (xs : List Data) → itemsWeight v (Object.isNode i) (plainItems xs) = 0
  | [] => rfl
  | x :: xs => by
    have hx := places_plain x
    rw [plainItems, itemsWeight_cons, itemPlaces_plain xs]
    exact hx

end

mutual

lemma places_ofData : (d : Data) → (k : Nat) →
    (ofData d k).1.places .all i = (ofData d k).1.numbers.count i
  | .object es, k => by
    rw [ofData]
    split
    · rename_i kind _
      have hkind : (plain kind).weight .all (Object.isNode i) = 0 := places_plain kind
      rw [places, weight_node, hkind, View.extent_all, fieldPlaces_ofEntries es (k + 1), numbers,
        count_cons]
      simp only [Object.isNode, beq_iff_eq]
      omega
    · rfl
  | .list xs, k => by
    rw [ofData, places, weight_list, itemPlaces_ofItems xs k, numbers]
    exact Nat.zero_add _
  | .null, _ | .undefined, _ | .bool _, _ | .num _, _ | .str _, _ => rfl

lemma itemPlaces_ofItems : (xs : List Data) → (k : Nat) →
    itemsWeight .all (Object.isNode i) (ofItems xs k).1 = (itemNumbers (ofItems xs k).1).count i
  | [], _ => rfl
  | x :: xs, k => by
    have hx := places_ofData x k
    rw [places] at hx
    rw [ofItems, itemsWeight_cons, itemPlaces_ofItems xs _, itemNumbers, count_append, hx]

lemma fieldPlaces_ofEntries : (es : List (String × Data)) → (k : Nat) →
    fieldsWeight .all (Object.isNode i) (fun _ => .whole) (ofEntries es k).1 =
      (fieldNumbers (ofEntries es k).1).count i
  | [], _ => rfl
  | (name, x) :: es, k => by
    rw [ofEntries]
    split
    · exact fieldPlaces_ofEntries es k
    · have hx := places_ofData x k
      rw [fieldsWeight_cons, fieldPlaces_ofEntries es _, fieldNumbers, count_append, ← hx]
      rfl

end

end Tree

end Given

section Edits

variable {v : View} {i : Nat}

lemma Tree.extentWeight_isNode (e : Extent) (t : Tree) :
    extentWeight v (Object.isNode i) e t = t.places v i := by
  cases e with
  | whole => rfl
  | items =>
    cases t with
    | list xs => rw [places, weight_list]; exact (Nat.zero_add _).symm
    | _ => rfl

mutual

lemma Tree.count_numbers_le : (t : Tree) → t.numbers.count i ≤ t.places v i
  | .node j kind fields => by
    have hfields := count_fieldNumbers_le fields (v.extent j kind)
    rw [numbers, count_cons, places, weight_node]
    simp only [Object.isNode, beq_iff_eq]
    omega
  | .list xs => by
    have hitems := count_itemNumbers_le xs
    rw [numbers, places, weight_list]
    omega
  | .null | .undefined | .bool _ | .num _ | .str _ | .object _ => Nat.zero_le _

lemma Tree.count_itemNumbers_le :
    (xs : List Tree) → (itemNumbers xs).count i ≤ itemsWeight v (Object.isNode i) xs
  | [] => Nat.le_refl _
  | x :: xs => by
    have hx := count_numbers_le x
    have hxs := count_itemNumbers_le xs
    rw [places] at hx
    rw [itemNumbers, count_append, itemsWeight_cons]
    omega

lemma Tree.count_fieldNumbers_le :
    (fs : List (String × Tree)) → (e : String → Extent) →
      (fieldNumbers fs).count i ≤ fieldsWeight v (Object.isNode i) e fs
  | [], _ => Nat.le_refl _
  | (name, x) :: fs, e => by
    have hx := count_numbers_le x
    have hfs := count_fieldNumbers_le fs e
    rw [fieldNumbers, count_append, fieldsWeight_cons, extentWeight_isNode]
    dsimp only
    omega

end

mutual

lemma Tree.update_of_places (change : Node → Node) :
    (t : Tree) → t.places v i = 0 → t.update i change = t
  | .node j kind fields, h => by
    rw [places, weight_node] at h
    have hj : j ≠ i := by
      rintro rfl
      simp [Object.isNode] at h
    rw [update, if_neg hj, update_of_places change kind (by rw [places]; omega),
      updateFields_of_places change fields (v.extent j kind) (by omega)]
    rfl
  | .list xs, h => by
    rw [places, weight_list] at h
    rw [update, updateItems_of_places change xs (by omega)]
  | .null, _ | .undefined, _ | .bool _, _ | .num _, _ | .str _, _ | .object _, _ => rfl

lemma Tree.updateItems_of_places (change : Node → Node) :
    (xs : List Tree) → itemsWeight v (Object.isNode i) xs = 0 → updateItems i change xs = xs
  | [], _ => rfl
  | x :: xs, h => by
    rw [itemsWeight_cons] at h
    rw [updateItems, update_of_places change x (by rw [places]; omega),
      updateItems_of_places change xs (by omega)]

lemma Tree.updateFields_of_places (change : Node → Node) :
    (fs : List (String × Tree)) → (e : String → Extent) →
      fieldsWeight v (Object.isNode i) e fs = 0 → updateFields i change fs = fs
  | [], _, _ => rfl
  | (name, x) :: fs, e, h => by
    rw [fieldsWeight_cons, extentWeight_isNode] at h
    dsimp only at h
    rw [updateFields, update_of_places change x (by omega),
      updateFields_of_places change fs e (by omega)]

end

namespace Visit

lemma places_held_le (h : Held n s) : s.child.toTree.places v i ≤ (n.get s.key).places v i := by
  rcases held_iff.1 h with ⟨hc, -⟩ | ⟨xs, j, hxs, hj, -⟩
  · rw [hc]
  · have := itemsWeight_set (v := v) (c := Object.isNode i) hj .null
    rw [hxs, places, places, weight_list]
    rw [weight_null] at this
    omega

lemma places_fields_le (n : Node) (names : List String) (hd : names.Nodup)
    (ht : "type" ∉ names) :
    (names.map fun name => (n.get name).places v i).sum ≤ n.toTree.places v i := by
  have hget : (names.map fun name => (n.get name).places v i) = names.map fun name =>
      extentWeight v (Object.isNode i) (v.extent n.id n.kind name)
        ((Entries.get? name n.fields).getD .null) := by
    refine map_congr_left fun name hmem => ?_
    have hne : name ≠ "type" := fun he => ht (he ▸ hmem)
    rw [extentWeight_isNode, Node.get, Node.get?, if_neg hne]
  have := sum_extentWeight_le (v := v) (c := Object.isNode i) (e := v.extent n.id n.kind) hd
    n.fields
  rw [hget, places, Node.weight_toTree]
  omega

lemma places_pair_le {t : Slot} (hs : Held n s) (ht : Held n t)
    (hsk : s.key ≠ "type") (htk : t.key ≠ "type") (hne : s.place ≠ t.place) :
    s.child.toTree.places v i + t.child.toTree.places v i ≤ n.toTree.places v i := by
  by_cases hk : s.key = t.key
  · have hone := places_fields_le (v := v) (i := i) n [s.key] (nodup_singleton s.key)
      (by simpa using Ne.symm hsk)
    simp only [map_cons, map_nil, sum_cons, sum_nil] at hone
    rcases held_iff.1 hs with ⟨hc, hi⟩ | ⟨xs, a, hxs, ha, hi⟩ <;>
      rcases held_iff.1 ht with ⟨hd, hj⟩ | ⟨ys, b, hys, hb, hj⟩
    · exact absurd (Prod.ext hk (hi.trans hj.symm)) hne
    · cases hc.symm.trans (hk ▸ hys)
    · cases hd.symm.trans (hk ▸ hxs)
    · obtain rfl : xs = ys := Tree.list.inj (hxs.symm.trans (hk ▸ hys))
      have hab : a ≠ b := by
        rintro rfl
        exact hne (Prod.ext hk (hi.trans hj.symm))
      -- With one item taken out, the other one is still there.
      have hout := itemsWeight_set (v := v) (c := Object.isNode i) ha .null
      have hb' : (xs.set a .null)[b]? = some t.child.toTree := (getElem?_set_ne hab).trans hb
      have hrest := itemsWeight_set (v := v) (c := Object.isNode i) hb' .null
      rw [hxs, places, weight_list] at hone
      rw [weight_null] at hout hrest
      rw [places, places]
      omega
  · have htwo := places_fields_le (v := v) (i := i) n [s.key, t.key] (by simp [hk])
      (by simp [Ne.symm hsk, Ne.symm htk])
    have hsle := places_held_le (v := v) (i := i) hs
    have htle := places_held_le (v := v) (i := i) ht
    simp only [map_cons, map_nil, sum_cons, sum_nil] at htwo
    omega

end Visit

end Edits

def Object.isPlain : Object → Bool
  | .node _ => false
  | _ => true

/-- The lists and tables of a tree, each as often as slots hold it. -/
def Tree.lists (t : Tree) : List Object := (t.objects .all).filter Object.isPlain

lemma subperm_of_sums {α : Type} {xs ys zs : List α} (p : α → Bool)
    (h : ∀ c : α → Nat, (∀ x, p x = false → c x = 0) →
      (xs.map c).sum ≤ (ys.map c).sum + (zs.map c).sum) :
    (xs.filter p).Subperm (ys.filter p ++ zs) := by
  classical
  have hsum (x : α) (zs : List α) : (zs.map fun y => if y = x then 1 else 0).sum = zs.count x := by
    induction zs with
    | nil => rfl
    | cons z zs ih => simp [count_cons, ih, Nat.add_comm]
  refine subperm_ext_iff.2 fun x hx => ?_
  have hpx := (mem_filter.1 hx).2
  have hle := h (fun y => if y = x then 1 else 0) fun y hy => if_neg (by rintro rfl; simp [hpx] at hy)
  rwa [hsum, hsum, hsum, ← count_filter hpx, ← count_filter (l := ys) hpx, ← count_append] at hle

end Places

end Overload
