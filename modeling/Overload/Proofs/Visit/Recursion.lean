import Overload.Proofs.Visit.Confined

/-! Visiting as a recursion on the tree. -/

namespace Overload.Visit

variable {σ : Type}

structure Result (σ : Type) where
  outcome : Except Fault Unit
  node : Node
  progress : Progress σ

structure Place where
  parent : Option Node
  key : String
  index : Option Nat

def sweep (f : Slot → Node → Progress σ → Result σ) :
    List Slot → Node → Progress σ → Result σ
  | [], n, p => ⟨.ok (), n, p⟩
  | s :: rest, n, p =>
    let r := f s n p
    match r.outcome with
    | .error e => ⟨.error e, fill n s.key s.index r.node, r.progress⟩
    | .ok _ => sweep f rest (fill n s.key s.index r.node) r.progress

def finish (table : Table σ) (place : Place) (n : Node) (p : Progress σ) : Result σ :=
  match rulesFor table n with
  | .error e => ⟨.error e, n, p⟩
  | .ok rules =>
    let r := applyRules rules
      ⟨⟨n, place.parent, place.key, place.index, none, false⟩, p.next, p.notes, p.state⟩
    ⟨r.1, r.2.site.node, ⟨r.2.next, r.2.notes, r.2.state⟩⟩

def sweepWith : (ss : List Slot) → ((s : Slot) → s ∈ ss → Node → Progress σ → Result σ) →
    Node → Progress σ → Result σ
  | [], _, n, p => ⟨.ok (), n, p⟩
  | s :: rest, f, n, p =>
    let r := f s List.mem_cons_self n p
    match r.outcome with
    | .error e => ⟨.error e, fill n s.key s.index r.node, r.progress⟩
    | .ok _ => sweepWith rest (fun t h => f t (List.mem_cons_of_mem s h))
      (fill n s.key s.index r.node) r.progress

lemma sweepWith_eq (f : Slot → Node → Progress σ → Result σ) (ss : List Slot) (n : Node)
    (p : Progress σ) : sweepWith ss (fun s _ => f s) n p = sweep f ss n p := by
  induction ss generalizing n p with
  | nil => rfl
  | cons s rest ih =>
    rw [sweepWith, sweep]
    split
    · rfl
    · exact ih _ _

def visit (table : Table σ) (n : Node) (place : Place) (p : Progress σ) : Result σ :=
  match n.childKeys with
  | .error e => ⟨.error e, n, p⟩
  | .ok keys =>
    let r := sweepWith (slotsOf n keys)
      (fun s _ m p => visit table s.child ⟨some m, s.key, s.index⟩ p) n p
    match r.outcome with
    | .error e => ⟨.error e, r.node, r.progress⟩
    | .ok _ => finish table place r.node r.progress
termination_by n.toTree.size
decreasing_by exact size_child_lt ‹_›

def visitSlot (table : Table σ) (s : Slot) (m : Node) (p : Progress σ) : Result σ :=
  visit table s.child ⟨some m, s.key, s.index⟩ p

lemma visit_of_childKeys {table : Table σ} {n : Node} {keys : List String}
    (h : n.childKeys = .ok keys) (place : Place) (p : Progress σ) :
    visit table n place p =
      match (sweep (visitSlot table) (slotsOf n keys) n p).outcome with
      | .error e => ⟨.error e, (sweep (visitSlot table) (slotsOf n keys) n p).node,
          (sweep (visitSlot table) (slotsOf n keys) n p).progress⟩
      | .ok _ => finish table place (sweep (visitSlot table) (slotsOf n keys) n p).node
          (sweep (visitSlot table) (slotsOf n keys) n p).progress := by
  rw [visit, h]
  simp only [← sweepWith_eq]
  rfl

lemma visit_of_error {table : Table σ} {n : Node} {e : Fault} (h : n.childKeys = .error e)
    (place : Place) (p : Progress σ) : visit table n place p = ⟨.error e, n, p⟩ := by
  rw [visit, h]

inductive Below (n : Node) : Node → Prop
  | refl : Below n n
  | child {m : Node} {s : Slot} : Below n m → s ∈ slots m → Below n s.child

lemma Below.trans {n m k : Node} (h : Below n m) (h' : Below m k) : Below n k := by
  induction h' with
  | refl => exact h
  | child _ hs ih => exact .child ih hs

lemma Below.head {n k : Node} {s : Slot} (hs : s ∈ slots n) (h : Below s.child k) : Below n k :=
  .trans (.child .refl hs) h

lemma below_iff {n k : Node} : Below n k ↔ k = n ∨ ∃ s ∈ slots n, Below s.child k := by
  constructor
  · intro h
    induction h with
    | refl => exact .inl rfl
    | child _ hs ih =>
      rcases ih with rfl | ⟨t, ht, hb⟩
      · exact .inr ⟨_, hs, .refl⟩
      · exact .inr ⟨t, ht, hb.child hs⟩
  · rintro (rfl | ⟨s, hs, hb⟩)
    · exact .refl
    · exact .head hs hb

def Lawful (n : Node) : Prop :=
  ∀ m, Below n m → ∀ keys, m.childKeys = .ok keys → keys.Nodup ∧ "type" ∉ keys

lemma Lawful.child {n : Node} (h : Lawful n) {s : Slot} (hs : s ∈ slots n) : Lawful s.child :=
  fun m hm => h m (Below.trans (.child .refl hs) hm)

end Overload.Visit

namespace Overload

def Tree.Reaches (t : Tree) (n : Node) : Prop := ∃ root : Node, t = root.toTree ∧ Visit.Below root n

end Overload
