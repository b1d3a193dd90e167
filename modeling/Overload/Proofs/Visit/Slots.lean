import Overload.Proofs.Tree.Fields
import Overload.Proofs.Tree.Size
import Overload.Visit.Basic

/-! The slots of a node that hold its children, in the order of visiting. -/

namespace Overload.Visit

open List Overload.Tree Node Site Option

variable {keys : List String} {i : Nat} {xs : List Tree}

variable {n : Node} {key : String} {s : Slot}

structure Slot where
  key : String
  index : Option Nat
  child : Node

def itemSlots (key : String) : Nat → List Tree → List Slot
  | _, [] => []
  | i, x :: xs => (x.node?.map (⟨key, some i, ·⟩)).toList ++ itemSlots key (i + 1) xs

def fieldSlots (key : String) : Tree → List Slot
  | .list xs => itemSlots key 0 xs
  | t => (t.node?.map (⟨key, none, ·⟩)).toList

def slotsOf (n : Node) (keys : List String) : List Slot :=
  keys.flatMap fun key => fieldSlots key (n.get key)

/-- The slots of the children; a node whose kind cannot be looked up has none. -/
def slots (n : Node) : List Slot :=
  match n.childKeys with
  | .ok keys => slotsOf n keys
  | .error _ => []

lemma slots_of_childKeys (h : n.childKeys = .ok keys) : slots n = slotsOf n keys := by
  rw [slots, h]

lemma mem_itemSlots :
    s ∈ itemSlots key i xs ↔
      s.key = key ∧ ∃ j, xs[j]? = some s.child.toTree ∧ s.index = some (i + j) := by
  induction xs generalizing i with
  | nil => simp [itemSlots]
  | cons x xs ih =>
    rw [itemSlots, mem_append, ih]
    constructor
    · rintro (h | ⟨hk, j, hj, hi⟩)
      · obtain ⟨n, hn, rfl⟩ : ∃ n, x.node? = some n ∧ ⟨key, some i, n⟩ = s := by simpa using h
        exact ⟨rfl, 0, by simp [toTree_of_node? hn], by simp⟩
      · exact ⟨hk, j + 1, by simpa using hj, by rw [hi]; congr 1; omega⟩
    · rintro ⟨hk, j, hj, hi⟩
      obtain ⟨k, idx, n⟩ := s
      cases j with
      | zero =>
        left
        obtain rfl : x = n.toTree := by simpa using hj
        simp at hk hi
        simp [node?_toTree, hk, hi]
      | succ j => exact .inr ⟨hk, j, by simpa using hj, by rw [hi]; congr 1; omega⟩

lemma mem_fieldSlots {t : Tree} :
    s ∈ fieldSlots key t ↔ s.key = key ∧
      (t = s.child.toTree ∧ s.index = none ∨
        ∃ xs i, t = .list xs ∧ xs[i]? = some s.child.toTree ∧ s.index = some i) := by
  unfold fieldSlots
  split
  · rename_i xs
    rw [mem_itemSlots]
    constructor
    · rintro ⟨hk, i, hi, hs⟩
      exact ⟨hk, .inr ⟨xs, i, rfl, hi, by simpa using hs⟩⟩
    · rintro ⟨hk, ⟨ht, -⟩ | ⟨ys, i, hys, hi, hs⟩⟩
      · simp [toTree] at ht
      · obtain rfl := list.inj hys
        exact ⟨hk, i, hi, by simpa using hs⟩
  · rename_i hl
    constructor
    · intro h
      obtain ⟨n, hn, rfl⟩ : ∃ n, t.node? = some n ∧ ⟨key, none, n⟩ = s := by simpa using h
      exact ⟨rfl, .inl ⟨(toTree_of_node? hn).symm, rfl⟩⟩
    · rintro ⟨hk, ⟨rfl, hi⟩ | ⟨xs, i, rfl, -⟩⟩
      · obtain ⟨k, idx, n⟩ := s
        simp at hk hi
        simp [node?_toTree, hk, hi]
      · exact absurd rfl (hl xs)

lemma mem_slotsOf : s ∈ slotsOf n keys ↔ s.key ∈ keys ∧ s ∈ fieldSlots s.key (n.get s.key) := by
  rw [slotsOf, mem_flatMap]
  constructor
  · rintro ⟨key, hkey, hs⟩
    obtain rfl := (mem_fieldSlots.1 hs).1
    exact ⟨hkey, hs⟩
  · exact fun h => ⟨s.key, h⟩

lemma holds_of_mem_fieldSlots (h : s ∈ fieldSlots s.key (n.get s.key)) :
    holds n s.key s.index s.child.id = true := by
  obtain ⟨-, ⟨ht, hi⟩ | ⟨xs, i, ht, hx, hi⟩⟩ := mem_fieldSlots.1 h
  · simp [holds, ht, hi, toTree]
  · simp [holds, ht, hi, hx, node?_toTree]

lemma size_getElem?_lt {t : Tree} (h : xs[i]? = some t) : t.size < (list xs).size := by
  rw [size]
  induction xs generalizing i with
  | nil => simp at h
  | cons x xs ih =>
    rw [sizeItems]
    cases i with
    | zero =>
      obtain rfl : x = t := by simpa using h
      omega
    | succ i =>
      have := ih (by simpa using h)
      omega

lemma size_get_lt (n : Node) (key : String) : (n.get key).size < n.toTree.size := by
  by_cases hk : key = "type"
  · subst hk
    rw [toTree, size, Node.get, get?_type, getD_some]
    omega
  · have := n.sum_size_le [key] (by simp) (by simpa using Ne.symm hk)
    rw [Node.get]
    cases hg : n.get? key with
    | none =>
      simp only [hg, map_cons, map_none, getD_none, sum_cons, size]
        at this ⊢
      omega
    | some t =>
      simp only [hg, map_cons, map_some, getD_some, sum_cons] at this ⊢
      omega

lemma size_child_lt (h : s ∈ slotsOf n keys) : s.child.toTree.size < n.toTree.size := by
  have hget := size_get_lt n s.key
  obtain ⟨-, ⟨ht, -⟩ | ⟨xs, i, ht, hx, -⟩⟩ := mem_fieldSlots.1 (mem_slotsOf.1 h).2
  · rwa [ht] at hget
  · rw [ht] at hget
    have := size_getElem?_lt hx
    omega

def fill (n : Node) (key : String) (index : Option Nat) (child : Node) : Node :=
  match put n key index child.toTree with
  | .ok m => m
  | .error _ => n

lemma settle_of_holds {child : Node} {index : Option Nat}
    (h : holds n key index child.id = true) :
    settle n key index child = fill n key index child := by
  rw [settle, if_pos h]
  rfl

lemma put_of_holds {index : Option Nat} {id : Nat} (h : holds n key index id = true)
    (x : Tree) : ∃ m, put n key index x = .ok m := by
  unfold holds at h
  split at h
  · rename_i xs i hxs
    have hi : i < xs.length := by
      by_contra hi
      rw [getElem?_eq_none (by omega)] at h
      simp at h
    exact ⟨_, by simp [put, hxs, hi]; rfl⟩
  · exact ⟨_, rfl⟩
  · simp at h

lemma id_fill (n : Node) (key : String) (index : Option Nat) (child : Node) :
    (fill n key index child).id = n.id := by
  unfold fill
  split
  · exact id_put ‹_›
  · rfl

lemma get?_fill_of_ne {other : String} (h : other ≠ key) (index : Option Nat) (child : Node) :
    (fill n key index child).get? other = n.get? other := by
  unfold fill
  split
  · rename_i m hm
    unfold put at hm
    split at hm
    · obtain rfl := Except.ok.inj hm
      exact get?_set_of_ne h
    · split at hm
      · split at hm
        · obtain rfl := Except.ok.inj hm
          exact get?_set_of_ne h
        · simp at hm
      · simp at hm
  · rfl

lemma get_fill_of_ne {other : String} (h : other ≠ key) (index : Option Nat) (child : Node) :
    (fill n key index child).get other = n.get other := by
  rw [Node.get, get?_fill_of_ne h, Node.get]

lemma fill_none (n : Node) (key : String) (child : Node) :
    fill n key none child = n.set key child.toTree := rfl

lemma fill_some (child : Node) (h : n.get key = .list xs) (hi : i < xs.length) :
    fill n key (some i) child = n.set key (.list (xs.set i child.toTree)) := by
  simp [fill, put, h, hi]

lemma fill_self (h : s ∈ fieldSlots s.key (n.get s.key)) : fill n s.key s.index s.child = n := by
  obtain ⟨-, ⟨ht, hi⟩ | ⟨xs, i, ht, hx, hi⟩⟩ := mem_fieldSlots.1 h
  · rw [hi, fill_none]
    exact set_of_get? (get?_of_get ht (by simp [toTree]))
  · obtain ⟨hlt, hx⟩ := List.getElem?_eq_some_iff.1 hx
    rw [hi, fill_some _ ht hlt, ← hx, set_getElem_self]
    exact set_of_get? (get?_of_get ht (by simp))

end Overload.Visit
