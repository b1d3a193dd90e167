import Overload.Proofs.Failing
import Overload.Proofs.Visit.Slots

/-! Actions that leave the parent alone but for the slot of the visited node. -/

namespace Overload.Visit

open Site

def Site.Placed (s : Site) : Prop :=
  ∀ q, s.parent = some q → holds q s.key s.index s.node.id = true

structure Site.Stays (s t : Site) : Prop where
  key : t.key = s.key
  index : t.index = s.index
  orphan : t.orphan = s.orphan
  placed : t.Placed
  root : s.parent = none → t.parent = none
  parent : ∀ q, s.parent = some q → ∃ r, t.parent = some r ∧
    ∀ x, put r s.key s.index x = put q s.key s.index x

namespace Site

lemma Stays.refl {s : Site} (h : s.Placed) : s.Stays s :=
  ⟨rfl, rfl, rfl, h, id, fun q hq => ⟨q, hq, fun _ => rfl⟩⟩

lemma Stays.trans {s t u : Site} (h : s.Stays t) (h' : t.Stays u) : s.Stays u := by
  refine ⟨h'.key.trans h.key, h'.index.trans h.index, h'.orphan.trans h.orphan, h'.placed,
    fun hs => h'.root (h.root hs), fun q hq => ?_⟩
  obtain ⟨r, hr, hput⟩ := h.parent q hq
  obtain ⟨r', hr', hput'⟩ := h'.parent r hr
  refine ⟨r', hr', fun x => ?_⟩
  rw [h.key, h.index] at hput'
  rw [hput', hput]

lemma put_put {p q : Node} {key : String} {index : Option Nat} {v : Tree}
    (h : put p key index v = .ok q) (x : Tree) : put q key index x = put p key index x := by
  unfold put at h
  split at h
  · obtain rfl := Except.ok.inj h
    simp [put, Node.set_set]
  · split at h
    · rename_i i xs hxs
      split at h
      · obtain rfl := Except.ok.inj h
        simp [put, hxs, Node.set_set, List.set_set]
      · simp at h
    · simp at h

lemma holds_of_put {p q n : Node} {key : String} {index : Option Nat}
    (h : put p key index n.toTree = .ok q) : holds q key index n.id = true := by
  unfold put at h
  split at h
  · obtain rfl := Except.ok.inj h
    simp [holds, Node.toTree]
  · split at h
    · split at h
      · rename_i hi
        obtain rfl := Except.ok.inj h
        simp [holds, hi, Tree.node?_toTree]
      · simp at h
    · simp at h

end Site

variable {σ α β : Type}

def Confined (a : Act σ α) : Prop :=
  ∀ c : Context σ, c.site.Placed → c.site.Stays (a c).2.site

lemma replace_root {c : Context σ} (h : c.site.parent = none) (new : Node) :
    replace new c = (.ok (), { c with site :=
      { c.site with node := c.site.node.overwrite new, replaced := true } }) := by
  simp only [replace, bind_def, getSite, h]
  rfl

lemma replace_child {c : Context σ} {p : Node} (h : c.site.parent = some p) (new : Node) :
    replace new c = match put p c.site.key c.site.index new.toTree with
      | .ok q => (.ok (), { c with site :=
          { c.site with parent := some q, node := new, replaced := true } })
      | .error e => (.error e, c) := by
  simp only [replace, bind_def, getSite, h, lift]
  cases put p c.site.key c.site.index new.toTree <;> rfl

namespace Confined

lemma of_site {a : Act σ α} (h : ∀ c, (a c).2.site = c.site) : Confined a := by
  intro c hc
  rw [h c]
  exact .refl hc

lemma bind {a : Act σ α} {f : α → Act σ β} (ha : Confined a) (hf : ∀ x, Confined (f x)) :
    Confined (a >>= f) := by
  intro c hc
  have h := ha c hc
  rw [bind_def]
  split
  · rename_i x d hd
    rw [hd] at h
    exact h.trans (hf x d h.placed)
  · rename_i e d hd
    rwa [hd] at h

lemma pure (x : α) : Confined (pure x : Act σ α) := of_site fun _ => rfl

lemma throw (e : Fault) : Confined (throw e : Act σ α) := of_site fun _ => rfl

lemma lift (r : Except Fault α) : Confined (lift r : Act σ α) := of_site fun _ => rfl

lemma getSite : Confined (getSite : Act σ Site) := of_site fun _ => rfl

lemma getNode : Confined (getNode : Act σ Node) := of_site fun _ => rfl

lemma getState : Confined (getState : Act σ σ) := of_site fun _ => rfl

lemma setState (s : σ) : Confined (setState s : Act σ Unit) := of_site fun _ => rfl

lemma build (f : Fresh α) : Confined (build f : Act σ α) := of_site fun _ => rfl

lemma attr (name : String) : Confined (attr name : Act σ Tree) := getNode.bind fun _ => lift _

lemma ite {p : Prop} [Decidable p] {a b : Act σ α} (ha : Confined a) (hb : Confined b) :
    Confined (if p then a else b) := by
  split
  · exact ha
  · exact hb

lemma replace (new : Node) : Confined (replace new : Act σ Unit) := by
  intro c hc
  cases hp : c.site.parent with
  | none =>
    rw [replace_root hp]
    exact ⟨rfl, rfl, rfl, fun q hq => by simp [hp] at hq, fun _ => hp,
      fun q hq => by simp [hp] at hq⟩
  | some p =>
    rw [replace_child hp]
    cases hq : put p c.site.key c.site.index new.toTree with
    | error e => exact .refl hc
    | ok q =>
      refine ⟨rfl, rfl, rfl, fun r hr => ?_, fun hn => by simp [hp] at hn, fun r hr => ?_⟩
      · obtain rfl : q = r := by simpa using hr
        exact holds_of_put hq
      · obtain rfl : p = r := by simpa [hp] using hr
        exact ⟨q, rfl, put_put hq⟩

lemma edit {f : Node → Node} (h : ∀ n, (f n).id = n.id) :
    Confined (do setNode (f (← Visit.getNode)) : Act σ Unit) := by
  intro c hc
  refine ⟨rfl, rfl, rfl, fun q hq => ?_, id, fun q hq => ⟨q, hq, fun _ => rfl⟩⟩
  exact (congrArg (holds q c.site.key c.site.index) (h c.site.node)).trans (hc q hq)

lemma replaceBy (t : Tree) : Confined (replaceBy t : Act σ Unit) := (lift _).bind fun _ => replace _

end Confined

end Overload.Visit
