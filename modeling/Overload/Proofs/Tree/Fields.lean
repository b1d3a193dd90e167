import Mathlib.Data.List.Basic
import Overload.Tree.Basic

/-! Reading the fields of a node after some of them were set. -/

namespace Overload

open List

namespace Entries

variable {κ α : Type} [DecidableEq κ]

lemma set_set (name : κ) (a b : α) (es : List (κ × α)) :
    set name b (set name a es) = set name b es := by
  induction es with
  | nil => simp [set]
  | cons e es ih =>
    obtain ⟨n, v⟩ := e
    by_cases h : n = name
    · simp [set, h]
    · simp [set, h, ih]

lemma set_of_get? {name : κ} {a : α} {es : List (κ × α)} (h : get? name es = some a) :
    set name a es = es := by
  induction es with
  | nil => simp at h
  | cons e es ih =>
    obtain ⟨n, v⟩ := e
    by_cases hn : n = name
    · obtain rfl : v = a := by simpa [get?, hn] using h
      simp [set, hn]
    · simp only [get?, hn, if_false] at h
      simp [set, hn, ih h]

lemma mem_of_get? {name : κ} {a : α} {es : List (κ × α)} (h : get? name es = some a) :
    (name, a) ∈ es := by
  induction es with
  | nil => simp at h
  | cons e es ih =>
    obtain ⟨n, v⟩ := e
    by_cases hn : n = name
    · obtain rfl : v = a := by simpa [get?, hn] using h
      simp [hn]
    · simp only [get?, hn, if_false] at h
      exact mem_cons_of_mem _ (ih h)

lemma get?_eq_none_iff {name : κ} {es : List (κ × α)} :
    get? name es = none ↔ name ∉ es.map (·.1) := by
  induction es with
  | nil => simp
  | cons e rest ih =>
    by_cases hn : e.1 = name
    · simp [get?, hn]
    · simp [get?, hn, ih, Ne.symm hn]

lemma isSome_get? {e : κ × α} {es : List (κ × α)} (h : e ∈ es) : (get? e.1 es).isSome = true := by
  induction es with
  | nil => simp at h
  | cons f es ih =>
    rw [get?]
    split
    · rfl
    · rename_i hne
      rcases mem_cons.1 h with rfl | h
      · exact absurd rfl hne
      · exact ih h

lemma mem_of_mem_set {name : κ} {a : α} {e : κ × α} {es : List (κ × α)} (h : e ∈ set name a es) :
    e = (name, a) ∨ e ∈ es := by
  induction es with
  | nil => exact .inl (by simpa [set] using h)
  | cons f es ih =>
    obtain ⟨n, v⟩ := f
    by_cases hn : n = name
    · simp only [set, hn, if_true, mem_cons] at h
      exact h.imp_right (mem_cons_of_mem _)
    · simp only [set, hn, if_false, mem_cons] at h
      rcases h with rfl | h
      · exact .inr (by simp)
      · exact (ih h).imp_right (mem_cons_of_mem _)

lemma mem_of_mem_erase {name : κ} {e : κ × α} {es : List (κ × α)} (h : e ∈ erase name es) :
    e ∈ es := by
  induction es with
  | nil => exact h
  | cons f es ih =>
    rw [erase] at h
    split at h
    · exact mem_cons_of_mem _ h
    · rcases mem_cons.1 h with rfl | h
      · exact mem_cons_self
      · exact mem_cons_of_mem _ (ih h)

end Entries

namespace Node

variable {n : Node} {name other : String} {value : Tree}

lemma get?_set_of_ne (h : other ≠ name) : (n.set name value).get? other = n.get? other := by
  by_cases hn : name = "type"
  · subst hn
    simp [set, get?, h]
  · by_cases ho : other = "type"
    · subst ho
      simp [set, get?, hn]
    · simp [set, get?, hn, ho, Entries.get?_set_of_ne h]

@[simp] lemma get_set_self : (n.set name value).get name = value := by
  simp [get, get?_set_self]

lemma set_set (n : Node) (name : String) (a b : Tree) :
    (n.set name a).set name b = n.set name b := by
  by_cases h : name = "type"
  · simp [set, h]
  · simp [set, h, Entries.set_set]

lemma set_of_get? (h : n.get? name = some value) : n.set name value = n := by
  by_cases hn : name = "type"
  · subst hn
    obtain rfl : n.kind = value := by simpa [get?] using h
    rfl
  · simp only [get?, hn, if_false] at h
    simp [set, hn, Entries.set_of_get? h]

lemma is_of_kind {kind : String} (h : n.kind = .str kind) (other : String) :
    n.is other = (kind == other) := by
  rw [is, h]

lemma is_iff {kind : String} : n.is kind = true ↔ n.kind = .str kind := by
  unfold is
  split
  · simp [*]
  · rename_i h
    simpa using h kind

lemma toTree_injective {m : Node} (h : n.toTree = m.toTree) : n = m := by
  cases n
  cases m
  simpa [toTree] using h

lemma get?_of_get (h : n.get name = value) (hv : value ≠ .null) : n.get? name = some value := by
  cases hg : n.get? name with
  | none =>
    simp only [get, hg, Option.getD_none] at h
    exact absurd h.symm hv
  | some c =>
    simp only [get, hg, Option.getD_some] at h
    rw [h]

end Node

end Overload
