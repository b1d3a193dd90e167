import Overload.Proofs.Lowering.Scope
import Overload.Proofs.Semantics.Term

/-! Trees of operator expressions are lawful, and the search for their names succeeds. -/

namespace Overload.Semantics

open Visit Node List
open Syntax (OfKind Field)

variable {n : Node}

lemma ofKind_toTree {kind : Kind} {P : Node → Prop} :
    OfKind kind P n.toTree ↔ n.kind = .str kind.name ∧ P n := by
  constructor
  · rintro ⟨m, hm, h⟩
    obtain rfl : n = m := toTree_injective hm
    exact h
  · exact fun h => ⟨n, rfl, h⟩

lemma Depicts.node {e : Term} {t : Tree} (h : Depicts e t) : ∃ n : Node, t = n.toTree := by
  cases e with
  | binary op l r =>
    obtain ⟨kind, -, n, hn, -⟩ := h
    exact ⟨n, hn⟩
  | _ =>
    obtain ⟨n, hn, -⟩ := h
    exact ⟨n, hn⟩

lemma DepictsAll.nodes {es : List Term} {ts : List Tree} (h : DepictsAll es ts) :
    ∃ cs : List Node, ts = cs.map toTree ∧
      Forall₂ (fun e (c : Node) => Depicts e c.toTree) es cs := by
  induction es generalizing ts with
  | nil => exact ⟨[], h, .nil⟩
  | cons e es ih =>
    obtain ⟨t, rest, rfl, ht, hrest⟩ := h
    obtain ⟨c, rfl⟩ := ht.node
    obtain ⟨cs, rfl, hcs⟩ := ih hrest
    exact ⟨c :: cs, rfl, .cons ht hcs⟩

lemma depicts_field {name : String} {e : Term} (h : Field name (Depicts e) n) :
    ∃ c : Node, n.get? name = some c.toTree ∧ Depicts e c.toTree := by
  obtain ⟨t, ht, he⟩ := h
  obtain ⟨c, rfl⟩ := he.node
  exact ⟨c, ht, he⟩

def Depicted (n : Node) : Prop := ∃ e, Depicts e n.toTree

def Child (P : Node → Prop) (n : Node) (key : String) : Prop :=
  (∃ c : Node, n.get? key = some c.toTree ∧ P c) ∨
    ∃ cs : List Node, n.get? key = some (.list (cs.map toTree)) ∧ ∀ c ∈ cs, P c

lemma child_of_field {key : String} {e : Term} (h : Field key (Depicts e) n) :
    Child Depicted n key := by
  obtain ⟨c, hc, he⟩ := depicts_field h
  exact .inl ⟨c, hc, e, he⟩

lemma Depicts.children {e : Term} (h : Depicts e n.toTree) :
    ∃ k : Kind, n.kind = .str k.name ∧ k.name ∉ Tree.functionKinds ∧
      (k = .identifier → ∃ name, n.get? "name" = some (.str name)) ∧
      ∀ key ∈ k.children, Child Depicted n key := by
  cases e with
  | literal v =>
    obtain ⟨hk, -⟩ := ofKind_toTree.1 h
    exact ⟨.literal, hk, by decide, by simp, by simp [Kind.children]⟩
  | ident name =>
    obtain ⟨hk, t, ht, rfl⟩ := ofKind_toTree.1 h
    exact ⟨.identifier, hk, by decide, fun _ => ⟨name, ht⟩, by simp [Kind.children]⟩
  | unary op e =>
    obtain ⟨hk, -, he⟩ := ofKind_toTree.1 h
    exact ⟨.unaryExpression, hk, by decide, by simp, by simpa [Kind.children] using child_of_field he⟩
  | binary op l r =>
    obtain ⟨k, hmem, h⟩ := h
    obtain ⟨hk, -, hl, hr⟩ := ofKind_toTree.1 h
    have hchildren : ∀ key ∈ ["left", "right"], Child Depicted n key := by
      simpa using ⟨child_of_field hl, child_of_field hr⟩
    simp only [mem_cons, not_mem_nil, or_false] at hmem
    rcases hmem with rfl | rfl
    · exact ⟨_, hk, by decide, by simp, hchildren⟩
    · exact ⟨_, hk, by decide, by simp, hchildren⟩
  | update op isBefore name =>
    obtain ⟨hk, -, -, ha⟩ := ofKind_toTree.1 h
    refine ⟨.updateExpression, hk, by decide, by simp, ?_⟩
    simpa [Kind.children] using child_of_field (e := .ident name) ha
  | assign op name e =>
    obtain ⟨hk, -, hl, hr⟩ := ofKind_toTree.1 h
    refine ⟨.assignmentExpression, hk, by decide, by simp, ?_⟩
    simpa [Kind.children] using ⟨child_of_field (e := .ident name) hl, child_of_field hr⟩
  | conditional c a b =>
    obtain ⟨hk, hc, ha, hb⟩ := ofKind_toTree.1 h
    refine ⟨.conditionalExpression, hk, by decide, by simp, ?_⟩
    simpa [Kind.children] using ⟨child_of_field hc, child_of_field ha, child_of_field hb⟩
  | sequence es =>
    obtain ⟨hk, t, ht, ts, rfl, hts⟩ := ofKind_toTree.1 h
    obtain ⟨cs, rfl, hcs⟩ := DepictsAll.nodes hts
    refine ⟨.sequenceExpression, hk, by decide, by simp, ?_⟩
    have hall : ∀ c ∈ cs, Depicted c := fun c hc => by
      obtain ⟨i, hi, rfl⟩ := getElem_of_mem hc
      exact ⟨_, (forall₂_iff_get.1 hcs).2 i (hcs.length_eq ▸ hi) hi⟩
    simp only [Kind.children, mem_singleton, forall_eq]
    exact .inr ⟨cs, ht, hall⟩

lemma Child.slot {P : Node → Prop} {s : Visit.Slot} (h : Child P n s.key) (hs : Held n s) :
    P s.child := by
  rcases h with ⟨c, hc, hP⟩ | ⟨cs, hc, hP⟩ <;>
    rcases held_iff.1 hs with ⟨ht, -⟩ | ⟨xs, i, ht, hx, -⟩ <;>
    rw [Node.get, hc, Option.getD_some] at ht
  · obtain rfl : c = s.child := toTree_injective ht
    exact hP
  · simp [toTree] at ht
  · simp [toTree] at ht
  · obtain rfl := Tree.list.inj ht
    obtain ⟨c, hmem, hct⟩ := mem_map.1 (mem_of_getElem? hx)
    obtain rfl : c = s.child := toTree_injective hct
    exact hP _ hmem

lemma Depicted.child {n : Node} (h : Depicted n) {s : Visit.Slot} (hs : s ∈ slots n) :
    Depicted s.child := by
  obtain ⟨e, he⟩ := h
  obtain ⟨k, hk, -, -, hc⟩ := he.children
  obtain ⟨hkey, hheld⟩ := (mem_slots_iff (childKeys_of_kind k hk)).1 hs
  exact (hc s.key hkey).slot hheld

lemma Depicted.below {m : Node} (h : Depicted n) (hb : Below n m) : Depicted m := by
  induction hb with
  | refl => exact h
  | child _ hs ih => exact ih.child hs

lemma Depicted.childKeys (h : Depicted n) :
    ∃ keys, n.childKeys = .ok keys ∧ keys.Nodup ∧ "type" ∉ keys := by
  obtain ⟨e, he⟩ := h
  obtain ⟨k, hk, -⟩ := he.children
  exact ⟨_, childKeys_of_kind k hk, Tree.children_nodup k⟩

lemma Depicted.lawful (h : Depicted n) : Lawful n := by
  intro m hb keys hk
  obtain ⟨keys', hk', hn⟩ := (h.below hb).childKeys
  obtain rfl : keys' = keys := Except.ok.inj (hk'.symm.trans hk)
  exact hn

lemma Depicted.ownName (h : Depicted n) : ∃ ts, Tree.ownName n = .ok ts := by
  obtain ⟨e, he⟩ := h
  obtain ⟨k, hk, -, hname, -⟩ := he.children
  unfold Tree.ownName
  split
  · rename_i hid
    obtain rfl : k = .identifier := by
      rw [is_of_kind hk, beq_iff_eq] at hid
      exact Option.some.inj ((Kind.ofName?_name k).symm.trans (congrArg Kind.ofName? hid))
    obtain ⟨name, hn⟩ := hname rfl
    exact ⟨[.str name], by simp [Node.attr, hn, Tree.key, Tree.isKey]⟩
  · exact ⟨[], rfl⟩

lemma Depicted.ofTree (h : Depicted n) (options : Options) :
    ∃ s, Lowering.State.ofTree n.toTree options = .ok s := by
  obtain ⟨ts, hts⟩ := Tree.names_eq_ok fun m hm => by
    obtain ⟨keys, hk, -, ht⟩ := (h.below hm).childKeys
    exact ⟨⟨keys, hk, ht⟩, (h.below hm).ownName⟩
  exact ⟨_, by simp [Lowering.State.ofTree, hts]; rfl⟩

end Overload.Semantics
