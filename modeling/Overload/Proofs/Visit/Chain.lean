import Overload.Proofs.Visit.Sweep

/-! Visits one after the other: what the visit of a list of children does, in the order of the list. -/

namespace Overload.Visit

open Node

variable {σ : Type} {table : Table σ} {P : Node → Progress σ → Node → Progress σ → Prop}

def Becomes (table : Table σ) (n : Node) (p : Progress σ) (m : Node) (q : Progress σ) : Prop :=
  Lawful n ∧ ∃ parent key index, visit table n ⟨some parent, key, index⟩ p = ⟨.ok (), m, q⟩

lemma renewed_becomes {n : Node} {place : Place} {p : Progress σ} (hl : Lawful n)
    (h : (visit table n place p).outcome = .ok ()) :
    ∃ m q, Renewed (Becomes table) n p m q ∧ visit table n place p = finish table place m q := by
  refine renewed_of_visit hl h fun s hs m p ho => ?_
  refine ⟨fun k hk => hl k (.head hs hk), m, s.key, s.index, ?_⟩
  rw [← ho]
  rfl

inductive Chain (P : Node → Progress σ → Node → Progress σ → Prop) :
    List Node → Progress σ → List Node → Progress σ → Prop
  | nil {p : Progress σ} : Chain P [] p [] p
  | cons {c d : Node} {cs ds : List Node} {p q r : Progress σ} : P c p d q → Chain P cs q ds r →
      Chain P (c :: cs) p (d :: ds) r

lemma chain_of_swept {key : String} (done : List Node) {cs : List Node} {n m : Node} {p q : Progress σ}
    (hn : n.get key = .list (done.map toTree ++ cs.map toTree))
    (h : Swept P (itemSlots key done.length (cs.map toTree)) n p m q) :
    ∃ ds : List Node, m.get key = .list (done.map toTree ++ ds.map toTree) ∧
      Chain P cs p ds q := by
  induction cs generalizing done n p with
  | nil =>
    cases h
    exact ⟨[], hn, .nil⟩
  | cons c cs ih =>
    rw [List.map_cons, itemSlots, Tree.node?_toTree] at h
    obtain _ | @⟨_, _, _, d, _, _, r, _, -, hc, hrest⟩ := h
    have hlt : done.length < (done.map toTree ++ (c :: cs).map toTree).length := by simp
    have hfill : (fill n key (some done.length) d).get key =
        .list ((done ++ [d]).map toTree ++ cs.map toTree) := by
      rw [fill_some d hn hlt, get_set_self]
      simp
    rw [show done.length + 1 = (done ++ [d]).length by simp] at hrest
    obtain ⟨ds, hds, hchain⟩ := ih _ hfill hrest
    exact ⟨d :: ds, by simpa using hds, .cons hc hchain⟩

lemma Renewed.chain {key : String} {cs : List Node} {n m : Node} {p q : Progress σ}
    (h : Renewed P n p m q) (hk : n.childKeys = .ok [key])
    (hc : n.get? key = some (.list (cs.map toTree))) :
    ∃ ds : List Node, m.get? key = some (.list (ds.map toTree)) ∧ Chain P cs p ds q := by
  obtain ⟨keys, hk', -, -, hs⟩ := h.keys
  obtain rfl : keys = [key] := Except.ok.inj (hk'.symm.trans hk)
  have hget : n.get key = .list (cs.map toTree) := by simp [Node.get, hc]
  have hslots : slotsOf n [key] = itemSlots key 0 (cs.map toTree) := by
    simp [slotsOf, fieldSlots, hget]
  rw [hslots] at hs
  obtain ⟨ds, hds, hchain⟩ := chain_of_swept [] hget hs
  exact ⟨ds, get?_of_get hds (by simp), hchain⟩

end Overload.Visit
