import Overload.Proofs.Visit.Search
import Overload.Proofs.Visit.Sweep

/-! Ways down a tree. -/

namespace Overload

open Overload.Tree List

variable {n : Node} {t : Tree}

def Node.isFunction (n : Node) : Bool := functionKinds.any n.is

namespace Visit

inductive Path : Node → Node → List Node → Prop
  | here {n : Node} : Path n n []
  | step {n y : Node} {s : Slot} {ups : List Node} : s ∈ slots n → Path s.child y ups →
      Path n y (ups ++ [n])

lemma Path.trans {m y : Node} {ups downs : List Node} (h : Path n m ups) (h' : Path m y downs) :
    Path n y (downs ++ ups) := by
  induction h with
  | here => simpa using h'
  | step hs _ ih =>
    rw [← append_assoc]
    exact .step hs (ih h')

lemma Path.split {f y : Node} {ups downs : List Node} (h : Path n y (downs ++ f :: ups)) :
    Path n f ups ∧ ∃ s ∈ slots f, Path s.child y downs := by
  generalize hl : downs ++ f :: ups = list at h
  induction h generalizing ups with
  | here => simp at hl
  | @step n y s above hs hp ih =>
    rcases eq_nil_or_concat ups with rfl | ⟨front, x, rfl⟩
    · obtain ⟨rfl, hn⟩ := append_inj' hl rfl
      obtain rfl : f = n := by simpa using hn
      exact ⟨.here, s, hs, hp⟩
    · have hl : (downs ++ f :: front) ++ [x] = above ++ [n] := by simpa using hl
      obtain ⟨rfl, hx⟩ := append_inj' hl rfl
      obtain rfl : x = n := by simpa using hx
      obtain ⟨hf, hy⟩ := ih rfl
      exact ⟨by simpa using Path.step hs hf, hy⟩

lemma Path.child {n : Node} {s : Slot} (hs : s ∈ slots n) : Path n s.child [n] :=
  @Path.step n s.child s [] hs .here

def Direct (f y : Node) : Prop :=
  ∃ s ∈ slots f, ∃ ups, Path s.child y ups ∧ ∀ u ∈ ups, u.isFunction = false

/-- The node that a value is, or the nodes in the list that it is, have the property. -/
def Parts (P : Node → Prop) (t : Tree) : Prop :=
  ∀ c : Node, t = c.toTree ∨ (∃ xs, t = .list xs ∧ c.toTree ∈ xs) → P c

section Parts

variable {P : Node → Prop}

def partNodes : Tree → List Node
  | .node id kind fields => [⟨id, kind, fields⟩]
  | .list xs => xs.filterMap node?
  | _ => []

lemma parts_iff : Parts P t ↔ ∀ c ∈ partNodes t, P c := by
  refine forall_congr' fun c => imp_congr_left ?_
  cases t with
  | list xs =>
    simp only [partNodes, mem_filterMap]
    constructor
    · rintro (h | ⟨ys, hys, hc⟩)
      · simp [Node.toTree] at h
      · exact ⟨_, Tree.list.inj hys ▸ hc, node?_toTree c⟩
    · rintro ⟨x, hx, hc⟩
      exact .inr ⟨xs, rfl, toTree_of_node? hc ▸ hx⟩
  | node id kind fields =>
    constructor
    · rintro (h | ⟨xs, hxs, -⟩)
      · exact mem_singleton.2 (Node.toTree_injective (m := ⟨id, kind, fields⟩) h.symm)
      · cases hxs
    · intro h
      exact .inl (congrArg Node.toTree (mem_singleton.1 h)).symm
  | _ => simp [partNodes, Node.toTree]

instance [DecidablePred P] (t : Tree) : Decidable (Parts P t) := decidable_of_iff _ parts_iff.symm

lemma Parts.mono {Q : Node → Prop} (h : Parts P t) (hPQ : ∀ n, P n → Q n) : Parts Q t :=
  fun c hc => hPQ c (h c hc)

@[simp] lemma parts_toTree : Parts P n.toTree ↔ P n := by
  constructor
  · exact fun h => h n (.inl rfl)
  · rintro h c (hc | ⟨xs, hxs, -⟩)
    · exact Node.toTree_injective hc ▸ h
    · simp [Node.toTree] at hxs

@[simp] lemma parts_node {i : Nat} {kind : Tree} {fields : List (String × Tree)} :
    Parts P (.node i kind fields) ↔ P ⟨i, kind, fields⟩ := parts_toTree (n := ⟨i, kind, fields⟩)

@[simp] lemma parts_list {xs : List Tree} :
    Parts P (.list xs) ↔ ∀ c : Node, c.toTree ∈ xs → P c := by
  constructor
  · exact fun h c hc => h c (.inr ⟨xs, rfl, hc⟩)
  · rintro h c (hc | ⟨ys, hys, hc⟩)
    · simp [Node.toTree] at hc
    · exact h c (list.inj hys ▸ hc)

lemma parts_items {ts : List Tree} (h : ∀ t ∈ ts, Parts P t) : Parts P (.list ts) :=
  parts_list.2 fun _ hc => parts_toTree.1 (h _ hc)

lemma parts_of_flat (hn : t.isNode = false) (hl : ∀ xs, t ≠ .list xs) : Parts P t := by
  rintro c (rfl | ⟨xs, hxs, -⟩)
  · cases hn
  · exact absurd hxs (hl xs)

@[simp] lemma parts_null : Parts P .null := parts_of_flat rfl (by simp)

@[simp] lemma parts_str {s : String} : Parts P (.str s) := parts_of_flat rfl (by simp)

@[simp] lemma parts_bool {b : Bool} : Parts P (.bool b) := parts_of_flat rfl (by simp)

lemma slot_of_parts (h : ∀ f ∈ n.fields, Parts P f.2) {s : Slot} (hs : s ∈ slots n) :
    P s.child := by
  obtain ⟨f, hf, hc⟩ := child_in_fields hs
  exact h f hf _ hc

lemma parts_of_slots {keys : List String} (hk : n.childKeys = .ok keys) {key : String}
    (hkey : key ∈ keys) (h : ∀ s ∈ slots n, P s.child) : Parts P (n.get key) := by
  rintro c (hc | ⟨xs, hxs, hc⟩)
  · exact h _ (slot_of_get? hk hkey (Node.get?_of_get hc (by simp [Node.toTree])))
  · obtain ⟨i, hi⟩ := getElem?_of_mem hc
    exact h _ (slot_of_item hk hkey (Node.get?_of_get hxs (by simp)) hi)

lemma part_of_slot {s : Slot} (hs : s ∈ slots n) :
    n.get s.key = s.child.toTree ∨ ∃ xs, n.get s.key = .list xs ∧ s.child.toTree ∈ xs := by
  unfold slots at hs
  split at hs
  · rcases (mem_fieldSlots.1 (mem_slotsOf.1 hs).2).2 with ⟨ht, -⟩ | ⟨xs, i, ht, hx, -⟩
    · exact .inl ht
    · exact .inr ⟨xs, ht, mem_of_getElem? hx⟩
  · simp at hs

lemma parts_of_kind (k : Kind) (hk : n.is k.name = true) {key : String} (hkey : key ∈ k.children)
    (h : ∀ s ∈ slots n, P s.child) : Parts P (n.get key) :=
  parts_of_slots (childKeys_of_kind k (Node.is_iff.1 hk)) hkey h

lemma Renewed.parts {σ : Type} {V : Node → Progress σ → Node → Progress σ → Prop}
    {R : Progress σ → Progress σ → Prop} (hR : Carries V R) {m : Node} {p q : Progress σ}
    (h : Renewed V n p m q) {keys : List String} (hk : n.childKeys = .ok keys) {key : String}
    (hkey : key ∈ keys) {Q : Node → Prop} (hn : Parts Q (n.get key))
    (hV : ∀ c a d b, V c a d b → R p a → R b q → Q c → P d) : Parts P (m.get key) := by
  have hslot {t : Slot} (ht : t ∈ slots m) (hkey : t.key = key) : P t.child := by
    obtain ⟨s, hs, hplace, a, b, hv, ha, hb⟩ := h.slot_of_mem hR ht
    have hsk : s.key = key := (congrArg Prod.fst hplace).trans hkey
    exact hV _ _ _ _ hv ha hb (hn s.child (hsk ▸ part_of_slot hs))
  rintro c (hc | ⟨xs, hxs, hc⟩)
  · exact hslot (slot_of_get? (h.childKeys.trans hk) hkey
      (Node.get?_of_get hc (by simp [Node.toTree]))) rfl
  · obtain ⟨i, hi⟩ := getElem?_of_mem hc
    exact hslot (slot_of_item (h.childKeys.trans hk) hkey
      (Node.get?_of_get hxs (by simp)) hi) rfl

lemma mem_elements {xs : List Tree} (h : t.elements = .ok xs) (hP : Parts P t) {c : Node}
    (hc : c.toTree ∈ xs) : P c := by
  unfold elements at h
  split at h
  · obtain rfl := Except.ok.inj h
    exact parts_list.1 hP c hc
  · obtain rfl := Except.ok.inj h
    simp [ofChar, Node.toTree] at hc
  · obtain rfl := Except.ok.inj h
    simp [Node.toTree] at hc
  · cases h

end Parts

end Visit

namespace Tree

open Visit

lemma among_functionKinds {b : Bool} (h : n.kind.among functionKinds = .ok b) :
    n.isFunction = b := by
  unfold among key at h
  cases hk : n.kind with
  | str kind =>
    obtain rfl : functionKinds.contains kind = b := by
      simpa [hk, isKey] using h
    simp [Node.isFunction, functionKinds, Node.is, hk, Bool.beq_eq_decide_eq]
  | _ =>
    first
    | simp [hk, isKey] at h; done
    | obtain rfl : false = b := by
        simpa [hk, isKey] using h
      simp [Node.isFunction, functionKinds, Node.is, hk]

lemma is_of_contains {kind : String} {y : Node} {ups : List Node}
    (h : n.toTree.contains kind = .ok false) (hp : Path n y ups)
    (hf : ∀ u ∈ ups, u.isFunction = false) : y.is kind = false := by
  induction hp with
  | @here n =>
    rw [contains, fold_toTree, nodeContains] at h
    by_contra his
    rw [Bool.not_eq_false] at his
    simp [his] at h
  | @step n y s ups hs _ ih =>
    refine ih ?_ fun u hu => hf u (by simp [hu])
    have hn := hf n (by simp)
    rw [contains, fold_toTree, nodeContains] at h
    cases his : n.is kind with
    | true => simp [his] at h
    | false =>
      cases ha : n.kind.among functionKinds with
      | error e => simp [his, ha] at h
      | ok b =>
        obtain rfl := among_functionKinds ha
        cases hc : n.childResults (fieldResults (nodeContains kind) (fun _ => .error .noAttribute) n) with
        | error e => simp [his, ha, hn, hc] at h
        | ok rs =>
          have hrs : runAny rs = .ok false := by
            simpa [his, ha, hn, hc] using h
          exact runAny_false.1 hrs _ (mem_childResults _ _ hc hs)

end Tree

end Overload
