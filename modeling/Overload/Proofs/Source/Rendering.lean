import Overload.Proofs.Source.Cost
import Overload.Proofs.Source.Printing

/-!
Printing as a recursion on the tree: a node is expanded, and what its parts print is put together.
-/

namespace Overload.Source

open Overload.Source.Part List

variable {t u : Tree} {ps qs : List Part} {f : Tree → Except Fault String}

def partsOf : Tree → Parts
  | .str s => .ok [.text s]
  | .node id kind fields => expand ⟨id, kind, fields⟩
  | _ => .error .noAttribute

lemma weight_le_cost {p : Part} (h : p ∈ ps) : p.weight ≤ cost ps := by
  induction h with
  | head ps =>
    rw [cost_cons]
    omega
  | tail q _ ih =>
    rw [cost_cons]
    omega

lemma weight_lt_of_mem (h : partsOf t = .ok ps) (hu : .tree u ∈ ps) :
    (tree u).weight < (tree t).weight := by
  cases t with
  | str s =>
    obtain rfl := Except.ok.inj h
    simp at hu
  | node id kind fields =>
    have hc := cost_expand h
    have := weight_le_cost hu
    simp only [Node.toTree] at hc
    omega
  | _ => cases h

def join (f : Tree → Except Fault String) : List Part → Except Fault String
  | [] => .ok ""
  | .text s :: ps => do return s ++ (← join f ps)
  | .tree t :: ps => do
    let s ← f t
    return s ++ (← join f ps)

def joinWith : (ps : List Part) → ((t : Tree) → .tree t ∈ ps → Except Fault String) →
    Except Fault String
  | [], _ => .ok ""
  | .text s :: ps, f => do return s ++ (← joinWith ps fun t h => f t (mem_cons_of_mem _ h))
  | .tree t :: ps, f => do
    let s ← f t mem_cons_self
    return s ++ (← joinWith ps fun t h => f t (mem_cons_of_mem _ h))

lemma joinWith_eq (f : Tree → Except Fault String) (ps : List Part) :
    joinWith ps (fun t _ => f t) = join f ps := by
  induction ps with
  | nil => rfl
  | cons p ps ih =>
    cases p with
    | text s => rw [joinWith, join, ih]
    | tree t => rw [joinWith, join, ih]

def render (t : Tree) : Except Fault String :=
  match _h : partsOf t with
  | .error e => .error e
  | .ok ps => joinWith ps fun u _ => render u
termination_by (tree t).weight
decreasing_by exact weight_lt_of_mem ‹_› ‹_›

theorem render_eq (t : Tree) : render t = partsOf t >>= join render := by
  rw [render]
  split
  · rename_i e h
    rw [h]
    rfl
  · rename_i ps h
    rw [h, joinWith_eq]
    rfl

lemma join_append (f : Tree → Except Fault String) (ps qs : List Part) :
    join f (ps ++ qs) = do
      let s ← join f ps
      return s ++ (← join f qs) := by
  induction ps with
  | nil => cases h : join f qs <;> simp [join, h]
  | cons p ps ih =>
    cases p with
    | text s =>
      simp only [cons_append, join, ih, bind_assoc, pure_bind, String.append_assoc]
    | tree t =>
      simp only [cons_append, join, ih, bind_assoc, pure_bind, String.append_assoc]

theorem run_eq_join {fuel : Nat} {done : String} (h : cost ps ≤ fuel) :
    run fuel ps done = do return done ++ (← join render ps) := by
  fun_induction run fuel ps done with
  | case1 fuel done => simp [join]
  | case2 p ps done =>
    have := p.one_le_weight
    rw [cost_cons] at h
    omega
  | case3 fuel s rest done ih =>
    rw [cost_cons, weight_text] at h
    rw [ih (by omega), join]
    simp only [bind_assoc, pure_bind, String.append_assoc]
  | case4 fuel s rest done ih =>
    have hw : (tree (.str s)).weight = 1 := rfl
    have hr : render (.str s) = .ok s := by
      rw [render_eq]
      simp [partsOf, join]
    rw [cost_cons, hw] at h
    rw [ih (by omega), join, hr]
    cases join render rest <;> simp [String.append_assoc]
  | case5 fuel t rest done hs ht =>
    have hr : partsOf t = .error .noAttribute := by
      cases t with
      | node => cases ht
      | str s => exact (hs s rfl).elim
      | _ => rfl
    rw [join, render_eq, hr]
    rfl
  | case6 fuel t rest done _ n hn e he =>
    obtain rfl := Tree.toTree_of_node? hn
    have hr : partsOf n.toTree = .error e := he
    rw [join, render_eq, hr]
    rfl
  | case7 fuel t rest done _ n hn parts he ih =>
    obtain rfl := Tree.toTree_of_node? hn
    have hr : partsOf n.toTree = .ok parts := he
    have := cost_expand he
    rw [cost_cons] at h
    rw [ih (by rw [cost_append]; omega), join_append, join, render_eq, hr]
    rfl

def Part.tree? : Part → Option Tree
  | .tree t => some t
  | .text _ => none

def children (t : Tree) : List Tree :=
  match partsOf t with
  | .error _ => []
  | .ok ps => ps.filterMap tree?

lemma weight_child (h : u ∈ children t) : (Part.tree u).weight < (Part.tree t).weight := by
  unfold children at h
  split at h
  · simp at h
  · rename_i ps hp
    obtain ⟨p, hmem, hp'⟩ := mem_filterMap.1 h
    cases p with
    | text s => cases hp'
    | tree v =>
      obtain rfl := Option.some.inj hp'
      exact weight_lt_of_mem hp hmem

def preorder (t : Tree) : List Tree :=
  t :: (children t).attach.flatMap fun ⟨u, _⟩ => preorder u
termination_by (tree t).weight
decreasing_by exact weight_child ‹_›

lemma preorder_eq (t : Tree) : preorder t = t :: (children t).flatMap preorder := by
  rw [preorder, flatMap_subtype (g := preorder) fun _ _ => rfl, unattach_attach]

def failure (t : Tree) : Option Fault :=
  match partsOf t with
  | .error e => some e
  | .ok _ => none

def fault? {α : Type} : Except Fault α → Option Fault
  | .error e => some e
  | .ok _ => none

lemma fault?_join {g : Tree → Option Fault} (ps : List Part)
    (h : ∀ u ∈ ps.filterMap tree?, fault? (f u) = g u) :
    fault? (join f ps) = (ps.filterMap tree?).findSome? g := by
  induction ps with
  | nil => rfl
  | cons p ps ih =>
    cases p with
    | text s =>
      rw [filterMap_cons_none rfl] at h ⊢
      rw [join, ← ih h]
      cases join f ps <;> rfl
    | tree t =>
      have hcons : (Part.tree t :: ps).filterMap tree? = t :: ps.filterMap tree? := rfl
      rw [hcons] at h ⊢
      rw [join, findSome?_cons, ← h t mem_cons_self,
        ← ih fun u hu => h u (mem_cons_of_mem _ hu)]
      cases f t with
      | error e => rfl
      | ok s => cases join f ps <;> rfl

lemma findSome?_flatMap {α β γ : Type} (f : α → List β) (g : β → Option γ) (xs : List α) :
    (xs.flatMap f).findSome? g = xs.findSome? fun x => (f x).findSome? g := by
  induction xs with
  | nil => rfl
  | cons x xs ih =>
    rw [flatMap_cons, findSome?_append, ih, findSome?_cons]
    cases (f x).findSome? g with
    | none | some y => rfl

theorem findSome?_preorder (t : Tree) : (preorder t).findSome? failure = fault? (render t) := by
  induction hw : (tree t).weight using Nat.strongRecOn generalizing t with
  | ind weight ih =>
    subst hw
    have hchild : ∀ u ∈ children t, fault? (render u) = (preorder u).findSome? failure :=
      fun u hu => (ih _ (weight_child hu) u rfl).symm
    rw [preorder_eq, findSome?_cons, findSome?_flatMap, render_eq, failure]
    cases hp : partsOf t with
    | error e => rfl
    | ok ps =>
      have hc : children t = ps.filterMap tree? := by rw [children, hp]
      rw [hc] at hchild ⊢
      exact (fault?_join ps hchild).symm

lemma print_eq (t : Tree) : print t = render t := by
  have hc : cost [.tree t] ≤ partBound t := by
    have := weight_tree_le t
    simp only [cost_cons, cost_nil, partBound]
    omega
  rw [print, run_eq_join hc]
  simp only [join]
  cases render t <;> simp

lemma Renders.join {cs : List Char} (h : Renders ps cs) :
    Source.join render ps = .ok (String.ofList cs) := by
  induction h with
  | nil => rfl
  | text _ ih => simp [Source.join, ih]
  | @string s rest cs _ ih =>
    simp [Source.join, render_eq, partsOf, ih]
  | @node n parts rest cs he _ ih =>
    have hparts : partsOf n.toTree = .ok parts := he
    rw [join_append] at ih
    rw [Source.join, render_eq, hparts]
    exact ih

lemma print_of_renders {cs : List Char} (h : Renders [.tree t] cs) :
    print t = .ok (String.ofList cs) := by
  have hj := h.join
  rw [Source.join, ← print_eq] at hj
  cases hp : print t with
  | error e =>
    rw [hp] at hj
    cases hj
  | ok s => simpa [hp, Source.join] using hj

/-- Printing is the recursion: it gives the text that the recursion gives, and where it fails, its
fault is that of the first tree in the order of printing that has no parts. -/
theorem print_eq_render (t : Tree) : print t = render t ∧
    ∀ e, print t = .error e ↔ (preorder t).findSome? failure = some e := by
  refine ⟨print_eq t, fun e => ?_⟩
  rw [print_eq, findSome?_preorder]
  cases render t <;> simp [fault?]

end Overload.Source
