import Overload.Proofs.Visit.Confined

/-! Partial correctness of actions. -/

namespace Overload.Visit

open Prod

variable {t : Tree} {name : String}

variable {σ α β : Type}

lemma lift_eq_ok {r : Except Fault α} {c d : Context σ} {x : α} :
    lift r c = (.ok x, d) ↔ r = .ok x ∧ d = c := by
  rw [lift]
  constructor
  · rintro h
    exact ⟨congrArg fst h, (congrArg snd h).symm⟩
  · rintro ⟨rfl, rfl⟩
    rfl

lemma attr_eq_ok {n : Node} : n.attr name = .ok t ↔ n.get? name = some t := by
  unfold Node.attr
  cases n.get? name <;> simp

lemma getAttr_eq_ok {c d : Context σ} :
    attr name c = (.ok t, d) ↔ c.site.node.get? name = some t ∧ d = c := by
  have h : attr name c = lift (c.site.node.attr name) c := rfl
  rw [h, lift_eq_ok, attr_eq_ok]

lemma lift_bind_eq_ok {r : Except Fault α} {f : α → Act σ β} {c d : Context σ} {y : β} :
    (lift r >>= f) c = (.ok y, d) ↔ ∃ x, r = .ok x ∧ f x c = (.ok y, d) := by
  rw [bind_eq_ok]
  constructor
  · rintro ⟨x, e, hx, hy⟩
    obtain ⟨hr, rfl⟩ := lift_eq_ok.1 hx
    exact ⟨x, hr, hy⟩
  · rintro ⟨x, hr, hy⟩
    exact ⟨x, c, lift_eq_ok.2 ⟨hr, rfl⟩, hy⟩

lemma attr_bind_eq_ok {f : Tree → Act σ β} {c d : Context σ} {y : β} :
    (attr name >>= f) c = (.ok y, d) ↔
      ∃ t, c.site.node.get? name = some t ∧ f t c = (.ok y, d) := by
  rw [bind_eq_ok]
  constructor
  · rintro ⟨x, e, hx, hy⟩
    obtain ⟨hr, rfl⟩ := getAttr_eq_ok.1 hx
    exact ⟨x, hr, hy⟩
  · rintro ⟨x, hr, hy⟩
    exact ⟨x, c, getAttr_eq_ok.2 ⟨hr, rfl⟩, hy⟩

lemma build_bind (f : Fresh α) (g : α → Act σ β) (c : Context σ) :
    (build f >>= g) c = g (f c.next).1 { c with next := (f c.next).2 } := rfl

lemma lift_bind {r : Except Fault α} {x : α} (h : r = .ok x) (f : α → Act σ β) (c : Context σ) :
    (lift r >>= f) c = f x c := by
  rw [h]
  rfl

lemma attr_bind {c : Context σ} (h : c.site.node.get? name = some t) (f : Tree → Act σ β) :
    (attr name >>= f) c = f t c := by
  rw [bind_def, getAttr_eq_ok.2 ⟨h, rfl⟩]

def Context.progress (c : Context σ) : Progress σ := ⟨c.next, c.notes, c.state⟩

def Triple (I : Context σ → Prop) (a : Act σ α) (Q : α → Context σ → Prop) : Prop :=
  ∀ c, I c → ∀ y d, a c = (.ok y, d) → Q y d

abbrev Ensures (I : Context σ → Prop) (a : Act σ α) (Q : α → Prop) : Prop :=
  Triple I a fun y c => I c ∧ Q y

variable {I : Context σ → Prop} {a : Act σ α} {Q : α → Prop} {R : β → Context σ → Prop}

lemma Triple.of_eq {T : α → Context σ → Prop} {y : Context σ → α} {d : Context σ → Context σ}
    (h : ∀ c, a c = (.ok (y c), d c)) (hT : ∀ c, I c → T (y c) (d c)) : Triple I a T := by
  intro c hc z e he
  rw [h c] at he
  obtain ⟨hz, rfl⟩ := mk.inj he
  obtain rfl := Except.ok.inj hz
  exact hT c hc

lemma Triple.throw {T : α → Context σ → Prop} (e : Fault) : Triple I (throw e : Act σ α) T := by
  intro c _ y d hd
  cases congrArg fst hd

namespace Ensures

lemma bind {f : α → Act σ β} (ha : Ensures I a Q) (hf : ∀ x, Q x → Triple I (f x) R) :
    Triple I (a >>= f) R := by
  intro c hc y d hd
  obtain ⟨x, e, hx, hy⟩ := bind_eq_ok.1 hd
  obtain ⟨he, hq⟩ := ha c hc x e hx
  exact hf x hq e he y d hy

lemma pure {x : α} (h : Q x) : Ensures I (pure x : Act σ α) Q :=
  Triple.of_eq (fun _ => rfl) fun _ hc => ⟨hc, h⟩

lemma lift {r : Except Fault α} (h : ∀ x, r = .ok x → Q x) : Ensures I (lift r : Act σ α) Q := by
  intro c hc y d hd
  obtain ⟨hr, rfl⟩ := mk.inj hd
  exact ⟨hc, h y hr⟩

lemma getNode {S : Node → Prop} (h : ∀ c, I c → S c.site.node) :
    Ensures I (getNode : Act σ Node) S :=
  Triple.of_eq (fun _ => rfl) fun c hc => ⟨hc, h c hc⟩

lemma getState {S : σ → Prop} (h : ∀ c, I c → S c.state) : Ensures I (getState : Act σ σ) S :=
  Triple.of_eq (fun _ => rfl) fun c hc => ⟨hc, h c hc⟩

lemma build {f : Fresh α} (h : ∀ c, I c → I { c with next := (f c.next).2 } ∧ Q (f c.next).1) :
    Ensures I (build f : Act σ α) Q :=
  Triple.of_eq (fun _ => rfl) h

end Ensures

def landed (parent : Option Node) (old new : Node) : Node :=
  match parent with
  | none => old.overwrite new
  | some _ => new

lemma landed_self (parent : Option Node) (n : Node) : landed parent n n = n := by
  cases parent <;> rfl

lemma asNode_eq_ok {n : Node} : t.asNode = .ok n ↔ t = n.toTree := by
  constructor
  · intro h
    unfold Tree.asNode at h
    split at h
    · obtain rfl := Except.ok.inj h
      exact (Tree.toTree_of_node? ‹_›).symm
    · cases h
  · rintro rfl
    rfl

lemma replaceBy_eq_ok {c d : Context σ} {u : Unit} (h : replaceBy t c = (.ok u, d)) :
    ∃ n, t = n.toTree ∧
      d.site.node = landed c.site.parent c.site.node n ∧ d = { c with site := d.site } := by
  obtain ⟨n, e, hn, hr⟩ := bind_eq_ok.1 h
  obtain ⟨hok, rfl⟩ := lift_eq_ok.1 hn
  refine ⟨n, asNode_eq_ok.1 hok, ?_⟩
  cases hp : e.site.parent with
  | none =>
    rw [replace_root hp] at hr
    obtain ⟨-, rfl⟩ := mk.inj hr
    exact ⟨rfl, rfl⟩
  | some p =>
    rw [replace_child hp] at hr
    cases hq : Site.put p e.site.key e.site.index n.toTree with
    | error f =>
      rw [hq] at hr
      cases congrArg fst hr
    | ok q =>
      rw [hq] at hr
      obtain ⟨-, rfl⟩ := mk.inj hr
      exact ⟨rfl, rfl⟩

lemma Triple.replaceBy {t : Tree} {T : Unit → Context σ → Prop}
    (h : ∀ c n s, I c → t = n.toTree → s.node = landed c.site.parent c.site.node n →
      T () { c with site := s }) : Triple I (replaceBy t : Act σ Unit) T := by
  intro c hc y d hd
  obtain ⟨n, ht, hn, hd⟩ := replaceBy_eq_ok hd
  rw [hd]
  exact h c n d.site hc ht hn

lemma replaceBy_of_placed {c : Context σ} (h : c.site.Placed) (n : Node) :
    ∃ s, replaceBy n.toTree c = (.ok (), { c with site := s }) ∧
      s.node = landed c.site.parent c.site.node n := by
  have hr : replaceBy n.toTree c = replace n c := rfl
  rw [hr]
  cases hp : c.site.parent with
  | none => exact ⟨_, replace_root hp n, by simp [landed]⟩
  | some p =>
    obtain ⟨q, hq⟩ := put_of_holds (h p hp) n.toTree
    rw [replace_child hp, hq]
    exact ⟨_, rfl, by simp [landed]⟩

end Overload.Visit
