import Mathlib.Data.List.Pairwise
import Overload.Proofs.Visit.Search

/-!
Trees made of data: the nodes are numbered from the given number on, and where the data has no
two entries of one name, neither has a node two fields of one name.
-/

namespace Overload

open List

variable {n : Node} {Q : Node → Prop}

namespace Tree

mutual

/-- Every node in the tree has the property, also in fields that hold no children. -/
def Every (P : Node → Prop) : Tree → Prop
  | .node id kind fields => P ⟨id, kind, fields⟩ ∧ EveryField P fields
  | .list xs => EveryItem P xs
  | _ => True
termination_by structural t => t

def EveryField (P : Node → Prop) : List (String × Tree) → Prop
  | [] => True
  | (_, x) :: rest => Every P x ∧ EveryField P rest
termination_by structural fs => fs

def EveryItem (P : Node → Prop) : List Tree → Prop
  | [] => True
  | x :: xs => Every P x ∧ EveryItem P xs
termination_by structural xs => xs

end

variable {P : Node → Prop}

lemma everyItem_iff {xs : List Tree} : EveryItem P xs ↔ ∀ x ∈ xs, Every P x := by
  induction xs with
  | nil => simp [EveryItem]
  | cons x xs ih => simp [EveryItem, ih]

lemma everyField_iff {fs : List (String × Tree)} : EveryField P fs ↔ ∀ f ∈ fs, Every P f.2 := by
  induction fs with
  | nil => simp [EveryField]
  | cons f fs ih => simp [EveryField, ih]

mutual

def decidableEvery [DecidablePred P] : (t : Tree) → Decidable (Every P t)
  | .node id kind fields =>
    have := decidableEveryField fields
    inferInstanceAs (Decidable (P ⟨id, kind, fields⟩ ∧ EveryField P fields))
  | .list xs => decidableEveryItem xs
  | .null | .undefined | .bool _ | .num _ | .str _ | .object _ => isTrue trivial
termination_by structural t => t

def decidableEveryField [DecidablePred P] : (fs : List (String × Tree)) → Decidable (EveryField P fs)
  | [] => isTrue trivial
  | (_, x) :: rest =>
    have := decidableEvery x
    have := decidableEveryField rest
    inferInstanceAs (Decidable (Every P x ∧ EveryField P rest))
termination_by structural fs => fs

def decidableEveryItem [DecidablePred P] : (xs : List Tree) → Decidable (EveryItem P xs)
  | [] => isTrue trivial
  | x :: xs =>
    have := decidableEvery x
    have := decidableEveryItem xs
    inferInstanceAs (Decidable (Every P x ∧ EveryItem P xs))
termination_by structural xs => xs

end

instance [DecidablePred P] (t : Tree) : Decidable (Every P t) := decidableEvery t

mutual

theorem Every.mono (h : ∀ n, P n → Q n) : (t : Tree) → Every P t → Every Q t 
  | .node _ _ fields, ht => ⟨h _ ht.1, EveryField.mono h fields ht.2⟩
  | .list xs, ht => EveryItem.mono h xs ht
  | .null, _ | .undefined, _ | .bool _, _ | .num _, _ | .str _, _ | .object _, _ => trivial

theorem EveryField.mono (h : ∀ n, P n → Q n) :
    (fs : List (String × Tree)) → EveryField P fs → EveryField Q fs 
  | [], _ => trivial
  | (_, x) :: rest, hf => ⟨Every.mono h x hf.1, EveryField.mono h rest hf.2⟩

theorem EveryItem.mono (h : ∀ n, P n → Q n) : (xs : List Tree) → EveryItem P xs → EveryItem Q xs 
  | [], _ => trivial
  | x :: xs, hx => ⟨Every.mono h x hx.1, EveryItem.mono h xs hx.2⟩

end

lemma Every.get? (h : Every P n.toTree) {name : String} (hne : name ≠ "type") {t : Tree}
    (ht : n.get? name = some t) : Every P t := by
  rw [Node.get?, if_neg hne] at ht
  exact everyField_iff.1 h.2 _ (Entries.mem_of_get? ht)

open Visit

lemma Every.child {n : Node} (h : Every P n.toTree) {s : Visit.Slot} (hs : s ∈ slots n)
    (hne : s.key ≠ "type") : Every P s.child.toTree := by
  unfold slots at hs
  split at hs
  · rcases (mem_fieldSlots.1 (mem_slotsOf.1 hs).2).2 with ⟨ht, -⟩ | ⟨xs, i, ht, hx, -⟩
    · exact h.get? hne (Node.get?_of_get ht (by simp [Node.toTree]))
    · have hlist := h.get? hne (Node.get?_of_get ht (by simp))
      exact everyItem_iff.1 hlist _ (mem_of_getElem? hx)
  · simp at hs

lemma Every.below {root : Node} (h : Every P root.toTree) (hb : Below root n) :
    Every P n.toTree := by
  induction hb with
  | refl => exact h
  | child _ hs ih => exact ih.child hs (Tree.key_ne_type hs)

lemma Every.reaches {t : Tree} (h : Every P t) (hn : t.Reaches n) : P n := by
  obtain ⟨root, rfl, hb⟩ := hn
  exact (h.below hb).1

end Tree

namespace Data

mutual

def keyed : Data → Bool
  | .object es => decide (es.map (·.1)).Nodup && keyedEntries es
  | .list xs => keyedItems xs
  | _ => true
termination_by structural d => d

def keyedItems : List Data → Bool
  | [] => true
  | x :: xs => keyed x && keyedItems xs
termination_by structural xs => xs

def keyedEntries : List (String × Data) → Bool
  | [] => true
  | (_, x) :: rest => keyed x && keyedEntries rest
termination_by structural es => es

end

end Data

/-- Data in which no object has two entries under one key. -/
structure Json where
  data : Data
  keyed : data.keyed = true

instance : Coe Json Data := ⟨Json.data⟩

namespace Tree

def Tidy (n : Node) : Prop := (n.fields.map (·.1)).Nodup ∧ "type" ∉ n.fields.map (·.1)

lemma names_ofEntries (es : List (String × Data)) (k : Nat) :
    (ofEntries es k).1.map (·.1) = (es.map (·.1)).filter (· ≠ "type") := by
  induction es generalizing k with
  | nil => rfl
  | cons e es ih =>
    obtain ⟨name, x⟩ := e
    by_cases h : name = "type"
    · simp [ofEntries, h, ih]
    · simp [ofEntries, h, ih]

mutual

theorem le_ofData : (d : Data) → (k : Nat) → k ≤ (ofData d k).2
  | .object es, k => by
    rw [ofData]
    split
    · exact Nat.le_trans (Nat.le_succ k) (le_ofEntries es (k + 1))
    · exact Nat.le_refl k
  | .list xs, k => le_ofItems xs k
  | .null, k | .undefined, k | .bool _, k | .num _, k | .str _, k => Nat.le_refl k

theorem le_ofItems : (xs : List Data) → (k : Nat) → k ≤ (ofItems xs k).2
  | [], k => Nat.le_refl k
  | x :: xs, k => Nat.le_trans (le_ofData x k) (le_ofItems xs _)

theorem le_ofEntries : (es : List (String × Data)) → (k : Nat) → k ≤ (ofEntries es k).2
  | [], k => Nat.le_refl k
  | (name, x) :: es, k => by
    rw [ofEntries]
    split
    · exact le_ofEntries es k
    · exact Nat.le_trans (le_ofData x k) (le_ofEntries es _)

end

mutual

def numbers : Tree → List Nat
  | .node id _ fields => id :: fieldNumbers fields
  | .list xs => itemNumbers xs
  | _ => []
termination_by structural t => t

def fieldNumbers : List (String × Tree) → List Nat
  | [] => []
  | (_, x) :: rest => numbers x ++ fieldNumbers rest
termination_by structural fs => fs

def itemNumbers : List Tree → List Nat
  | [] => []
  | x :: xs => numbers x ++ itemNumbers xs
termination_by structural xs => xs

end

lemma fieldNumbers_eq (fs : List (String × Tree)) :
    fieldNumbers fs = fs.flatMap fun f => f.2.numbers := by
  induction fs with
  | nil => rfl
  | cons f fs ih => simp [fieldNumbers, ih]

lemma itemNumbers_eq (xs : List Tree) : itemNumbers xs = xs.flatMap numbers := by
  induction xs with
  | nil => rfl
  | cons x xs ih => simp [itemNumbers, ih]

lemma range'_glue {k l m : Nat} (hkl : k ≤ l) (hlm : l ≤ m) :
    range' k (l - k) ++ range' l (m - l) = range' k (m - k) := by
  obtain ⟨i, rfl⟩ := Nat.exists_eq_add_of_le hkl
  obtain ⟨j, rfl⟩ := Nat.exists_eq_add_of_le hlm
  rw [Nat.add_sub_cancel_left, Nat.add_sub_cancel_left, range'_append_1, Nat.add_assoc,
    Nat.add_sub_cancel_left]

mutual

theorem numbers_ofData : (d : Data) → (k : Nat) →
    (ofData d k).1.numbers = range' k ((ofData d k).2 - k)
  | .object es, k => by
    rw [ofData]
    split
    · have hle := le_ofEntries es (k + 1)
      rw [numbers, fieldNumbers_ofEntries es (k + 1), ← range'_glue (Nat.le_succ k) hle]
      simp
    · simp [numbers]
  | .list xs, k => itemNumbers_ofItems xs k
  | .null, _ | .undefined, _ | .bool _, _ | .num _, _ | .str _, _ => by
    simp [ofData, plain, numbers]

theorem itemNumbers_ofItems : (xs : List Data) → (k : Nat) →
    itemNumbers (ofItems xs k).1 = range' k ((ofItems xs k).2 - k)
  | [], _ => by simp [ofItems, itemNumbers]
  | x :: xs, k => by
    rw [ofItems, itemNumbers, numbers_ofData x k, itemNumbers_ofItems xs _]
    exact range'_glue (le_ofData x k) (le_ofItems xs _)

theorem fieldNumbers_ofEntries : (es : List (String × Data)) → (k : Nat) →
    fieldNumbers (ofEntries es k).1 = range' k ((ofEntries es k).2 - k)
  | [], _ => by simp [ofEntries, fieldNumbers]
  | (name, x) :: es, k => by
    rw [ofEntries]
    split
    · exact fieldNumbers_ofEntries es k
    · rw [fieldNumbers, numbers_ofData x k, fieldNumbers_ofEntries es _]
      exact range'_glue (le_ofData x k) (le_ofEntries es _)

end

mutual

theorem tidy_ofData : (d : Data) → (k : Nat) → d.keyed = true → Every Tidy (ofData d k).1
  | .object es, k, h => by
    rw [Data.keyed, Bool.and_eq_true, decide_eq_true_iff] at h
    rw [ofData]
    split
    · refine ⟨⟨?_, ?_⟩, tidy_ofEntries es (k + 1) h.2⟩
      · rw [names_ofEntries]
        exact h.1.filter _
      · rw [names_ofEntries]
        simp
    · trivial
  | .list xs, k, h => tidy_ofItems xs k h
  | .null, _, _ | .undefined, _, _ | .bool _, _, _ | .num _, _, _ | .str _, _, _ => trivial

theorem tidy_ofItems : (xs : List Data) → (k : Nat) → Data.keyedItems xs = true →
    EveryItem Tidy (ofItems xs k).1
  | [], _, _ => trivial
  | x :: xs, k, h => by
    rw [Data.keyedItems, Bool.and_eq_true] at h
    exact ⟨tidy_ofData x k h.1, tidy_ofItems xs _ h.2⟩

theorem tidy_ofEntries : (es : List (String × Data)) → (k : Nat) → Data.keyedEntries es = true →
    EveryField Tidy (ofEntries es k).1
  | [], _, _ => trivial
  | (name, x) :: es, k, h => by
    rw [Data.keyedEntries, Bool.and_eq_true] at h
    rw [ofEntries]
    split
    · exact tidy_ofEntries es k h.2
    · exact ⟨tidy_ofData x k h.1, tidy_ofEntries es _ h.2⟩

end

open Visit

lemma children_nodup (k : Kind) : k.children.Nodup ∧ "type" ∉ k.children := by
  cases k <;> decide

lemma Tidy.childKeys (h : Tidy n) {keys : List String} (hk : n.childKeys = .ok keys) :
    keys.Nodup ∧ "type" ∉ keys := by
  cases hkey : n.kind.key with
  | error e => simp [Node.childKeys, hkey] at hk
  | ok key =>
    cases hkind : n.kind? with
    | some k =>
      obtain rfl : k.children = keys := by
        simpa [Node.childKeys, hkey, hkind] using hk
      exact children_nodup k
    | none =>
      obtain rfl : (n.fields.filter fun f => f.2.holdsNode).map (·.1) = keys := by
        simpa [Node.childKeys, hkey, hkind] using hk
      have hsub := (filter_sublist (p := fun f => f.2.holdsNode) (l := n.fields)).map (·.1)
      exact ⟨h.1.sublist hsub, fun hm => h.2 (hsub.subset hm)⟩

lemma Every.lawful (h : Every Tidy n.toTree) : Lawful n := by
  intro m hb
  suffices hm : Every Tidy m.toTree from fun keys hk => hm.1.childKeys hk
  induction hb with
  | refl => exact h
  | @child m s _ hs ih =>
    refine ih.child hs fun hkey => ?_
    unfold slots at hs
    split at hs
    · exact (ih.1.childKeys ‹_›).2 (hkey ▸ (mem_slotsOf.1 hs).1)
    · simp at hs

end Tree

lemma Json.lawful (d : Json) {k : Nat} (hroot : (Tree.ofData d k).1 = n.toTree) : Visit.Lawful n :=
  Tree.Every.lawful (hroot ▸ Tree.tidy_ofData d k d.keyed)

end Overload
