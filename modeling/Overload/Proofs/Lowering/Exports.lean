import Mathlib.Data.List.Forall2
import Overload.Proofs.Lowering.Rules

/-! The statement that returns the exports: an object with one property for each record. -/

namespace Overload.Lowering

variable {α β : Type}

def Supplies (least : Nat) (a : Making α) (Q : α → Prop) : Prop :=
  ∀ k x j, least ≤ k → a k = (.ok x, j) → k ≤ j ∧ Q x

namespace Supplies

variable {least : Nat} {Q : α → Prop} {R : β → Prop}

lemma bind {a : Making α} {f : α → Making β} (ha : Supplies least a Q)
    (hf : ∀ x, Q x → Supplies least (f x) R) : Supplies least (a >>= f) R := by
  intro k y j hk h
  obtain ⟨x, i, hx, hy⟩ := bind_eq_ok.1 h
  obtain ⟨hki, hq⟩ := ha k x i hk hx
  obtain ⟨hij, hr⟩ := hf x hq i y j (Nat.le_trans hk hki) hy
  exact ⟨Nat.le_trans hki hij, hr⟩

lemma pure {x : α} (h : Q x) : Supplies least (pure x) Q := by
  intro k y j _ hy
  obtain ⟨hx, rfl⟩ := Prod.mk.inj hy
  obtain rfl := Except.ok.inj hx
  exact ⟨Nat.le_refl k, h⟩

lemma throw (e : Fault) : Supplies least (throw e : Making α) Q := by
  intro k y j _ hy
  cases congrArg Prod.fst hy

lemma checked {r : Except Fault α} (h : ∀ x, r = .ok x → Q x) : Supplies least (checked r) Q := by
  intro k y j _ hy
  obtain ⟨hr, rfl⟩ := Prod.mk.inj hy
  exact ⟨Nat.le_refl k, h y hr⟩

lemma node {kind : String} {fields : List (String × Tree)} {Q : Tree → Prop}
    (h : ∀ i, least ≤ i → Q (.node i (.str kind) fields)) :
    Supplies least (making (Build.node kind fields)) Q := by
  intro k y j hk hy
  obtain ⟨hx, rfl⟩ := Prod.mk.inj hy
  obtain rfl := Except.ok.inj hx
  exact ⟨Nat.le_succ k, h k hk⟩

lemma mapM {f : α → Making β} {R : α → β → Prop} {xs : List α}
    (h : ∀ x ∈ xs, Supplies least (f x) (R x)) :
    Supplies least (xs.mapM f) (List.Forall₂ R xs) := by
  induction xs with
  | nil => exact pure .nil
  | cons x xs ih =>
    rw [List.mapM_cons]
    exact bind (h x (by simp)) fun y hy => bind (ih fun z hz => h z (by simp [hz])) fun ys hys =>
      pure (.cons hy hys)

end Supplies

lemma exists_of_forall₂ {R : α → β → Prop} {xs : List α} {ys : List β} (h : List.Forall₂ R xs ys)
    {y : β} (hy : y ∈ ys) : ∃ x ∈ xs, R x y := by
  induction h with
  | nil => simp at hy
  | cons hxy _ ih =>
    rcases List.mem_cons.1 hy with rfl | hy
    · exact ⟨_, by simp, hxy⟩
    · obtain ⟨x, hx, hr⟩ := ih hy
      exact ⟨x, by simp [hx], hr⟩

inductive Exported (least : Nat) (e : Export) : Tree → Prop
  | spread {i : Nat} : e.spread = true → least ≤ i →
      Exported least e (.node i (.str "SpreadElement") [("argument", e.declaration)])
  | property {i : Nat} {key : Tree} {shorthand : Bool} : e.spread = false → least ≤ i →
      (key = e.exported ∨ sameNode e.exported e.declaration = true ∧ ∃ n : Node, ∃ j, least ≤ j ∧
        e.exported = n.toTree ∧ key = { n with id := j }.toTree) →
      sameName key e.declaration = .ok shorthand →
      Exported least e (.node i (.str "Property") [("key", key), ("value", e.declaration),
        ("kind", .str "init"), ("method", .bool false), ("shorthand", .bool shorthand),
        ("computed", .bool false)])

lemma supplies_exportProperty (least : Nat) (e : Export) :
    Supplies least (exportProperty e) (Exported least e) := by
  unfold exportProperty
  split
  · rename_i hspread
    exact .node fun _ => .spread hspread
  · rename_i hspread
    split
    · exact .throw _
    · have rest (key : Tree) (h : key = e.exported ∨ sameNode e.exported e.declaration = true ∧
          ∃ n : Node, ∃ j, least ≤ j ∧ e.exported = n.toTree ∧ key = { n with id := j }.toTree) :
          Supplies least (do
            let shorthand ← checked (sameName key e.declaration)
            making (Build.property key e.declaration (.bool shorthand) (.bool false)))
            (Exported least e) :=
        .bind (.checked fun _ hs => hs) fun _ hs => .node fun _ hi =>
          .property (by simpa using hspread) hi h hs
      split
      · rename_i hsame
        refine .bind (.checked fun _ h => h) fun n hn => ?_
        refine .bind (Q := fun key => ∃ j, least ≤ j ∧ key = { n with id := j }.toTree) ?_ ?_
        · intro k y j hk hy
          obtain ⟨hx, rfl⟩ := Prod.mk.inj hy
          obtain rfl := Except.ok.inj hx
          exact ⟨Nat.le_succ k, k, hk, rfl⟩
        · rintro key ⟨j, hj, rfl⟩
          exact rest _ (.inr ⟨hsame, n, j, hj, Visit.asNode_eq_ok.1 hn, rfl⟩)
      · exact .bind (Q := (· = e.exported)) (.pure rfl) fun key hkey => rest key (.inl hkey)

lemma supplies_exportsObject (least : Nat) (exports : List Export) :
    Supplies least (exportsObject exports) fun t => ∃ i properties, least ≤ i ∧
      List.Forall₂ (Exported least) exports properties ∧
      t = .node i (.str "ObjectExpression") [("properties", .list properties)] :=
  .bind (.mapM fun e _ => supplies_exportProperty least e) fun ps hps =>
    .node fun i hi => ⟨i, ps, hi, hps, rfl⟩

lemma supplies_returned (least : Nat) (exports : List Export) :
    Supplies least (returned exports) fun t => ∃ i j properties, least ≤ i ∧ least ≤ j ∧
      List.Forall₂ (Exported least) exports properties ∧
      t = .node j (.str "ReturnStatement") [("argument",
        .node i (.str "ObjectExpression") [("properties", .list properties)])] := by
  refine .bind (supplies_exportsObject least exports) ?_
  rintro _ ⟨i, ps, hi, hps, rfl⟩
  exact .node fun j hj => ⟨i, j, ps, hi, hj, hps, rfl⟩

end Overload.Lowering
