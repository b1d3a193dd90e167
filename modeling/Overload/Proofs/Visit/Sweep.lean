import Mathlib.Data.List.Forall2
import Mathlib.Tactic.Choose
import Overload.Proofs.Visit.Recursion

/-!
What a visit that succeeds has done to a node: every slot holds what the visit of its child left
there.
-/

namespace Overload.Visit

open Node List Overload.Tree

variable {n m : Node} {xs : List Tree} {other : String}

variable {ss : List Slot} {keys : List String} {key : String} {s t : Slot} {c : Node}

variable {σ : Type} {table : Table σ} {P : Node → Progress σ → Node → Progress σ → Prop}

def Held (n : Node) (s : Slot) : Prop := s ∈ fieldSlots s.key (n.get s.key)

def Slot.place (s : Slot) : String × Option Nat := (s.key, s.index)

lemma held_iff : Held n s ↔
    n.get s.key = s.child.toTree ∧ s.index = none ∨
      ∃ xs i, n.get s.key = .list xs ∧ xs[i]? = some s.child.toTree ∧ s.index = some i := by
  rw [Held, mem_fieldSlots]
  exact ⟨fun h => h.2, fun h => ⟨rfl, h⟩⟩

lemma Held.get? {key : String} (h : Held n ⟨key, none, c⟩) : n.get? key = some c.toTree := by
  rcases held_iff.1 h with ⟨hc, -⟩ | ⟨xs, i, -, -, hi⟩
  · exact get?_of_get hc (by simp [toTree])
  · simp at hi

lemma mem_slots_iff (h : n.childKeys = .ok keys) : s ∈ slots n ↔ s.key ∈ keys ∧ Held n s := by
  rw [slots_of_childKeys h]
  exact mem_slotsOf

lemma slot_of_get? (hk : n.childKeys = .ok keys) (hkey : key ∈ keys)
    (hc : n.get? key = some c.toTree) : ⟨key, none, c⟩ ∈ slots n :=
  (mem_slots_iff hk).2 ⟨hkey, held_iff.2 (.inl ⟨by simp [Node.get, hc], rfl⟩)⟩

lemma slot_of_item (hk : n.childKeys = .ok keys) (hkey : key ∈ keys)
    (hx : n.get? key = some (.list xs)) {i : Nat} (hc : xs[i]? = some c.toTree) :
    ⟨key, some i, c⟩ ∈ slots n :=
  (mem_slots_iff hk).2 ⟨hkey, held_iff.2 (.inr ⟨xs, i, by simp [Node.get, hx], hc, rfl⟩)⟩

lemma Held.put (h : Held n s) (c : Node) : Held (fill n s.key s.index c) { s with child := c } := by
  rw [held_iff]
  rcases held_iff.1 h with ⟨-, hi⟩ | ⟨xs, i, hxs, hx, hi⟩
  · exact .inl ⟨by simp [hi, fill_none], hi⟩
  · have hlt := (List.getElem?_eq_some_iff.1 hx).1
    exact .inr ⟨xs.set i c.toTree, i, by simp [hi, fill_some c hxs hlt], by simp [hlt], hi⟩

lemma held_fill_iff (hs : Held n s) (c : Node) :
    Held (fill n s.key s.index c) t ↔
      t.place = s.place ∧ t.child = c ∨ t.place ≠ s.place ∧ Held n t := by
  by_cases hk : t.key = s.key
  · rcases held_iff.1 hs with ⟨hn, hi⟩ | ⟨xs, i, hxs, hx, hi⟩
    · rw [hi, fill_none, held_iff, held_iff, hk]
      simp only [get_set_self, hn, Slot.place, hk, hi, Prod.mk.injEq, true_and]
      constructor
      · rintro (⟨ht, hti⟩ | ⟨ys, j, hys, -⟩)
        · have := node?_toTree c
          rw [ht, node?_toTree] at this
          exact .inl ⟨hti, Option.some.inj this⟩
        · simp [toTree] at hys
      · rintro (⟨hti, rfl⟩ | ⟨hti, ⟨-, hti'⟩ | ⟨ys, j, hys, -⟩⟩)
        · exact .inl ⟨rfl, hti⟩
        · exact absurd (by rw [hti']) hti
        · simp [toTree] at hys
    · have hlt := (List.getElem?_eq_some_iff.1 hx).1
      rw [hi, fill_some c hxs hlt, held_iff, held_iff, hk]
      simp only [get_set_self, hxs, Slot.place, hk, hi, Prod.mk.injEq, true_and]
      constructor
      · rintro (⟨ht, -⟩ | ⟨ys, j, hys, hy, htj⟩)
        · simp [toTree] at ht
        · obtain rfl := list.inj hys
          by_cases hij : i = j
          · subst hij
            rw [getElem?_set_self hlt] at hy
            have := node?_toTree c
            rw [Option.some.inj hy, node?_toTree] at this
            exact .inl ⟨htj, Option.some.inj this⟩
          · rw [getElem?_set_ne hij] at hy
            refine .inr ⟨?_, .inr ⟨xs, j, rfl, hy, htj⟩⟩
            rw [htj]
            simpa using Ne.symm hij
      · rintro (⟨hti, rfl⟩ | ⟨hti, ⟨ht, -⟩ | ⟨ys, j, hys, hy, htj⟩⟩)
        · exact .inr ⟨_, i, rfl, by simp [hlt], hti⟩
        · simp [toTree] at ht
        · obtain rfl := list.inj hys
          have hij : i ≠ j := by
            rintro rfl
            exact hti (by rw [htj])
          exact .inr ⟨_, j, rfl, by rw [getElem?_set_ne hij]; exact hy, htj⟩
  · have hp : t.place ≠ s.place := fun h => hk (congrArg Prod.fst h)
    rw [Held, get_fill_of_ne hk]
    simp [hp, Held]

lemma pairwise_itemSlots (key : String) (i : Nat) (xs : List Tree) :
    (itemSlots key i xs).Pairwise fun s t => s.place ≠ t.place := by
  induction xs generalizing i with
  | nil => exact .nil
  | cons x xs ih =>
    rw [itemSlots]
    cases x.node? with
    | none => exact ih (i + 1)
    | some n =>
      refine pairwise_cons.2 ⟨fun t ht hp => ?_, ih (i + 1)⟩
      obtain ⟨-, j, -, hj⟩ := mem_itemSlots.1 ht
      have := congrArg Prod.snd hp
      simp only [Slot.place, hj, Option.some.injEq] at this
      omega

lemma pairwise_fieldSlots (key : String) (t : Tree) :
    (fieldSlots key t).Pairwise fun s t => s.place ≠ t.place := by
  unfold fieldSlots
  split
  · exact pairwise_itemSlots ..
  · cases t.node? <;> simp

lemma pairwise_slotsOf (h : keys.Nodup) :
    (slotsOf n keys).Pairwise fun s t => s.place ≠ t.place := by
  induction keys with
  | nil => exact .nil
  | cons key keys ih =>
    obtain ⟨hkey, h⟩ := nodup_cons.1 h
    refine pairwise_append.2 ⟨pairwise_fieldSlots .., ih h, fun s hs t ht hp => hkey ?_⟩
    have hst : s.key = t.key := congrArg Prod.fst hp
    rw [← (mem_fieldSlots.1 hs).1, hst]
    exact (mem_slotsOf.1 ht).1

structure Laid (n : Node) (ss : List Slot) : Prop where
  held : ∀ s ∈ ss, Held n s
  apart : ss.Pairwise fun s t => s.place ≠ t.place
  plain : ∀ s ∈ ss, s.key ≠ "type"

lemma laid_slotsOf (hn : keys.Nodup) (ht : "type" ∉ keys) : Laid n (slotsOf n keys) where
  held _ hs := (mem_slotsOf.1 hs).2
  apart := pairwise_slotsOf hn
  plain _ hs he := ht (he ▸ (mem_slotsOf.1 hs).1)

lemma Laid.head (h : Laid n (s :: ss)) : Held n s := h.held s (by simp)

lemma Laid.ne (h : Laid n (s :: ss)) : ∀ t ∈ ss, s.place ≠ t.place := (pairwise_cons.1 h.apart).1

lemma Laid.next (h : Laid n (s :: ss)) (c : Node) : Laid (fill n s.key s.index c) ss where
  held t ht := (held_fill_iff h.head c).2 (.inr ⟨(h.ne t ht).symm, h.held t (by simp [ht])⟩)
  apart := h.apart.of_cons
  plain t ht := h.plain t (by simp [ht])

variable {p q : Progress σ} {I : Progress σ → Prop}

inductive Swept (P : Node → Progress σ → Node → Progress σ → Prop) :
    List Slot → Node → Progress σ → Node → Progress σ → Prop
  | nil {n : Node} {p : Progress σ} : Swept P [] n p n p
  | cons {s : Slot} {rest : List Slot} {n c m : Node} {p q r : Progress σ} : Laid n (s :: rest) →
      P s.child p c q → Swept P rest (fill n s.key s.index c) q m r → Swept P (s :: rest) n p m r

lemma Swept.mono {Q : Node → Progress σ → Node → Progress σ → Prop} (h : Swept P ss n p m q)
    (hPQ : ∀ s ∈ ss, ∀ p c q, P s.child p c q → Q s.child p c q) : Swept Q ss n p m q := by
  induction h with
  | nil => exact .nil
  | cons hl hs _ ih =>
    exact .cons hl (hPQ _ (by simp) _ _ _ hs) (ih fun s hs => hPQ s (by simp [hs]))

lemma Swept.steps {J : Node → Progress σ → Prop} (h : Swept P ss n p m q) (hJ : J n p)
    (step : ∀ s x c a b, Held x s → s.key ≠ "type" → P s.child a c b → J x a →
      J (fill x s.key s.index c) b) : J m q := by
  induction h with
  | nil => exact hJ
  | cons hl hs _ ih => exact ih (step _ _ _ _ _ hl.head (hl.plain _ (by simp)) hs hJ)

lemma Swept.get?_of_ne (h : Swept P ss n p m q) (ho : ∀ s ∈ ss, other ≠ s.key) :
    m.get? other = n.get? other := by
  induction h with
  | nil => rfl
  | cons _ _ _ ih =>
    rw [ih fun s hs => ho s (by simp [hs]), get?_fill_of_ne (ho _ (by simp))]

structure Carries (P : Node → Progress σ → Node → Progress σ → Prop)
    (R : Progress σ → Progress σ → Prop) : Prop where
  refl : ∀ p, R p p
  trans : ∀ {p q r}, R p q → R q r → R p r
  of_visit : ∀ {n p m q}, P n p m q → R p q

variable {R : Progress σ → Progress σ → Prop}

lemma Swept.progress (hR : Carries P R) (h : Swept P ss n p m q) : R p q := by
  induction h with
  | nil => exact hR.refl _
  | cons _ hs _ ih => exact hR.trans (hR.of_visit hs) ih

lemma Swept.held_cases (hR : Carries P R) (h : Swept P ss n p m q) (ht : Held m t) :
    (∃ s ∈ ss, s.place = t.place ∧ ∃ a b, P s.child a t.child b ∧ R p a ∧ R b q) ∨
      Held n t ∧ ∀ s ∈ ss, s.place ≠ t.place := by
  induction h with
  | nil => exact .inr ⟨ht, by simp⟩
  | @cons s rest n c m p q r hl hs hrest ih =>
    rcases ih ht with ⟨u, hu, hup, a, b, hP, ha, hb⟩ | ⟨hheld, hall⟩
    · exact .inl ⟨u, by simp [hu], hup, a, b, hP, hR.trans (hR.of_visit hs) ha, hb⟩
    · rcases (held_fill_iff hl.head c).1 hheld with ⟨hp, rfl⟩ | ⟨hp, hn⟩
      · exact .inl ⟨s, by simp, hp.symm, p, q, hs, hR.refl p, hrest.progress hR⟩
      · refine .inr ⟨hn, fun u hu => ?_⟩
        rcases mem_cons.1 hu with rfl | hu
        · exact Ne.symm hp
        · exact hall u hu

lemma Swept.held_of_ne (h : Swept P ss n p m q) (ht : Held n t)
    (hne : ∀ s ∈ ss, t.place ≠ s.place) : Held m t := by
  induction h with
  | nil => exact ht
  | @cons s rest n c m p q r hl _ _ ih =>
    exact ih ((held_fill_iff hl.head c).2 (.inr ⟨hne s (by simp), ht⟩))
      fun u hu => hne u (by simp [hu])

lemma Swept.held_child (hR : Carries P R) (h : Swept P ss n p m q) (ht : t ∈ ss) :
    ∃ c a b, Held m { t with child := c } ∧ P t.child a c b ∧ R p a ∧ R b q := by
  induction h with
  | nil => simp at ht
  | @cons s rest n c m p q r hl hs hrest ih =>
    rcases mem_cons.1 ht with rfl | ht
    · exact ⟨c, p, q, hrest.held_of_ne (hl.head.put c) hl.ne, hs, hR.refl p, hrest.progress hR⟩
    · obtain ⟨d, a, b, hd, hP, ha, hb⟩ := ih ht
      exact ⟨d, a, b, hd, hP, hR.trans (hR.of_visit hs) ha, hb⟩

lemma Swept.ordered (hR : Carries P R) (h : Swept P ss n p m q) (hs : s ∈ ss) (ht : t ∈ ss)
    (hne : s.place ≠ t.place) : ∃ c d a b a' b', Held m { s with child := c } ∧
      Held m { t with child := d } ∧ P s.child a c b ∧ P t.child a' d b' ∧
      R p a ∧ R p a' ∧ (R b a' ∨ R b' a) := by
  induction h with
  | nil => simp at hs
  | @cons u rest n x m p q r hl hu hrest ih =>
    have hx : Held m { u with child := x } := hrest.held_of_ne (hl.head.put x) hl.ne
    have hpq := hR.of_visit hu
    rcases mem_cons.1 hs with rfl | hs' <;> rcases mem_cons.1 ht with rfl | ht'
    · exact absurd rfl hne
    · obtain ⟨d, a, b, hd, hP, ha, -⟩ := hrest.held_child hR ht'
      exact ⟨x, d, p, q, a, b, hx, hd, hu, hP, hR.refl p, hR.trans hpq ha, .inl ha⟩
    · obtain ⟨c, a, b, hc, hP, ha, -⟩ := hrest.held_child hR hs'
      exact ⟨c, x, a, b, p, q, hc, hx, hP, hu, hR.trans hpq ha, hR.refl p, .inr ha⟩
    · obtain ⟨c, d, a, b, a', b', hc, hd, hP, hP', ha, ha', ho⟩ := ih hs' ht'
      exact ⟨c, d, a, b, a', b', hc, hd, hP, hP', hR.trans hpq ha, hR.trans hpq ha', ho⟩

lemma Swept.began (hR : Carries P R) {F : Progress σ → Prop} (h : Swept P ss n p m q)
    (hp : ¬F p) (hq : F q) : ∃ t ∈ ss, ∃ c a b, Held m { t with child := c } ∧ P t.child a c b ∧
      ¬F a ∧ F b ∧ R p a ∧ R b q := by
  induction h with
  | nil => exact absurd hq hp
  | @cons s rest n c m p q r hl hs hrest ih =>
    by_cases hF : F q
    · exact ⟨s, by simp, c, p, q, hrest.held_of_ne (hl.head.put c) hl.ne, hs, hp, hF,
        hR.refl p, hrest.progress hR⟩
    · obtain ⟨t, ht, d, a, b, hd, hP, ha, hb, hpa, hbq⟩ := ih hF hq
      exact ⟨t, by simp [ht], d, a, b, hd, hP, ha, hb, hR.trans (hR.of_visit hs) hpa, hbq⟩

lemma childKeys_fill (h : Held n s) (hs : s.key ≠ "type") (c : Node) :
    (fill n s.key s.index c).childKeys = n.childKeys := by
  have hset {v w : Tree} (hv : n.get? s.key = some v) (hw : w.holdsNode = v.holdsNode) :
      (n.set s.key w).childKeys = n.childKeys := by
    have hfields : ∀ fs : List (String × Tree), Entries.get? s.key fs = some v →
        ((Entries.set s.key w fs).filter fun f => f.2.holdsNode).map (·.1) =
          (fs.filter fun f => f.2.holdsNode).map (·.1) := by
      intro fs
      induction fs with
      | nil => simp
      | cons f fs ih =>
        obtain ⟨k, u⟩ := f
        intro hf
        by_cases hk : k = s.key
        · obtain rfl : u = v := by simpa [Entries.get?, hk] using hf
          simp only [Entries.set, hk, if_true, filter_cons, hw]
          split <;> rfl
        · simp only [Entries.get?, hk, if_false] at hf
          simp only [Entries.set, hk, if_false, filter_cons]
          split <;> simp [ih hf]
    simp only [Node.get?, hs, if_false] at hv
    simp only [childKeys, kind?, Node.set, hs, if_false, hfields n.fields hv]
  rcases held_iff.1 h with ⟨hn, hi⟩ | ⟨xs, i, hxs, hx, hi⟩
  · rw [hi, fill_none]
    exact hset (get?_of_get hn (by simp [toTree])) rfl
  · obtain ⟨hlt, hxi⟩ := List.getElem?_eq_some_iff.1 hx
    rw [hi, fill_some c hxs hlt]
    refine hset (get?_of_get hxs (by simp)) ?_
    have hany {ys : List Tree} {d : Node} (hy : ys[i]? = some d.toTree) :
        (list ys).holdsNode = true :=
      List.any_eq_true.2 ⟨d.toTree, mem_of_getElem? hy, rfl⟩
    rw [hany hx, hany (d := c) (by simp [hlt])]

lemma Swept.list (h : Swept P ss n p m q) (hx : n.get key = .list xs) :
    ∃ ys, m.get key = .list ys ∧ ys.length = xs.length ∧
      ∀ i, (∀ s ∈ ss, s.place ≠ (key, some i)) → ys[i]? = xs[i]? := by
  induction h generalizing xs with
  | nil => exact ⟨xs, hx, rfl, fun _ _ => rfl⟩
  | @cons s rest n c m p q r hl hs hrest ih =>
    by_cases hk : key = s.key
    · subst hk
      rcases held_iff.1 hl.head with ⟨ht, -⟩ | ⟨zs, i, hz, hi, hidx⟩
      · rw [hx] at ht
        simp [toTree] at ht
      · have hlt := (List.getElem?_eq_some_iff.1 hi).1
        have hget : (fill n s.key s.index c).get s.key = .list (zs.set i c.toTree) := by
          rw [hidx, fill_some c hz hlt, get_set_self]
        obtain ⟨ys, hys, hlen, hother⟩ := ih hget
        obtain rfl : zs = xs := list.inj (hz.symm.trans hx)
        refine ⟨ys, hys, by simpa using hlen, fun j hj => ?_⟩
        have hij : i ≠ j := by
          rintro rfl
          exact hj s (by simp) (by rw [Slot.place, hidx])
        rw [hother j fun u hu => hj u (by simp [hu]), getElem?_set_ne hij]
    · obtain ⟨ys, hys, hlen, hother⟩ := ih (by rwa [get_fill_of_ne hk])
      exact ⟨ys, hys, hlen, fun j hj => hother j fun u hu => hj u (by simp [hu])⟩

inductive Seen (P : Node → Progress σ → Node → Progress σ → Prop) : Tree → Tree → Prop
  | node {c d : Node} {a b : Progress σ} : P c a d b → Seen P c.toTree d.toTree
  | other {x : Tree} : x.node? = none → Seen P x x

lemma seen_children {cs : List Node} {ys : List Tree}
    (h : Forall₂ (Seen P) (cs.map toTree) ys) :
    ∃ ds : List Node, ys = ds.map toTree ∧ Forall₂ (fun c d => ∃ a b, P c a d b) cs ds := by
  induction cs generalizing ys with
  | nil =>
    cases h
    exact ⟨[], rfl, .nil⟩
  | cons c cs ih =>
    obtain ⟨y, rest, hy, hrest, rfl⟩ := forall₂_cons_left_iff.1 h
    obtain ⟨ds, rfl, hds⟩ := ih hrest
    generalize hc : c.toTree = x at hy
    cases hy with
    | @node c' d a b hP =>
      obtain rfl := toTree_injective hc
      exact ⟨d :: ds, rfl, .cons ⟨a, b, hP⟩ hds⟩
    | other hx =>
      rw [← hc, node?_toTree] at hx
      cases hx

structure Renewed (P : Node → Progress σ → Node → Progress σ → Prop) (n : Node) (p : Progress σ)
    (m : Node) (q : Progress σ) : Prop where
  keys : ∃ keys, n.childKeys = .ok keys ∧ keys.Nodup ∧ "type" ∉ keys ∧
    Swept P (slotsOf n keys) n p m q

namespace Renewed

lemma mono {Q : Node → Progress σ → Node → Progress σ → Prop} (h : Renewed P n p m q)
    (hPQ : ∀ s ∈ slots n, ∀ p c q, P s.child p c q → Q s.child p c q) : Renewed Q n p m q := by
  obtain ⟨keys, hk, hn, ht, hs⟩ := h.keys
  rw [slots_of_childKeys hk] at hPQ
  exact ⟨keys, hk, hn, ht, hs.mono hPQ⟩

lemma steps {J : Node → Progress σ → Prop} (h : Renewed P n p m q) (hJ : J n p)
    (step : ∀ s x c a b, Held x s → s.key ≠ "type" → P s.child a c b → J x a →
      J (fill x s.key s.index c) b) : J m q := by
  obtain ⟨keys, -, -, -, h⟩ := h.keys
  exact h.steps hJ step

lemma id (h : Renewed P n p m q) : m.id = n.id :=
  h.steps (J := fun x _ => x.id = n.id) rfl fun _ _ _ _ _ _ _ _ hx => (id_fill ..).trans hx

lemma childKeys (h : Renewed P n p m q) : m.childKeys = n.childKeys :=
  h.steps (J := fun x _ => x.childKeys = n.childKeys) rfl fun _ _ c _ _ hs ht _ hx =>
    (childKeys_fill hs ht c).trans hx

lemma get? (h : Renewed P n p m q) (hk : n.childKeys = .ok keys) (ho : other ∉ keys) :
    m.get? other = n.get? other := by
  obtain ⟨keys', hk', -, -, h⟩ := h.keys
  obtain rfl : keys' = keys := Except.ok.inj (hk'.symm.trans hk)
  exact h.get?_of_ne fun s hs he => ho (he ▸ (mem_slotsOf.1 hs).1)

lemma kind (h : Renewed P n p m q) : m.kind = n.kind := by
  obtain ⟨keys, hk, -, ht, -⟩ := h.keys
  have := h.get? hk ht
  simpa [get?_type] using this

lemma is (h : Renewed P n p m q) (kind : String) : m.is kind = n.is kind := by
  rw [Node.is, h.kind, Node.is]

lemma slot_of_mem (hR : Carries P R) (h : Renewed P n p m q) (ht : t ∈ slots m) :
    ∃ s ∈ slots n, s.place = t.place ∧ ∃ a b, P s.child a t.child b ∧ R p a ∧ R b q := by
  have hkm := h.childKeys
  obtain ⟨keys, hk, -, -, h⟩ := h.keys
  obtain ⟨htk, hheld⟩ := (mem_slots_iff (hkm.trans hk)).1 ht
  rw [slots_of_childKeys hk]
  rcases h.held_cases hR hheld with hs | ⟨hheld, hne⟩
  · exact hs
  · exact absurd rfl (hne t (mem_slotsOf.2 ⟨htk, hheld⟩))

lemma mem_of_slot (hR : Carries P R) (h : Renewed P n p m q) (hs : s ∈ slots n) :
    ∃ c a b, { s with child := c } ∈ slots m ∧ P s.child a c b ∧ R p a ∧ R b q := by
  have hkm := h.childKeys
  obtain ⟨keys, hk, -, -, h⟩ := h.keys
  rw [slots_of_childKeys hk] at hs
  obtain ⟨c, a, b, hheld, hP⟩ := h.held_child hR hs
  exact ⟨c, a, b, (mem_slots_iff (hkm.trans hk)).2 ⟨(mem_slotsOf.1 hs).1, hheld⟩, hP⟩

lemma began (hR : Carries P R) {F : Progress σ → Prop} (h : Renewed P n p m q) (hp : ¬F p)
    (hq : F q) : ∃ s ∈ slots n, ∃ c a b, { s with child := c } ∈ slots m ∧ P s.child a c b ∧
      ¬F a ∧ F b ∧ R p a ∧ R b q := by
  have hkm := h.childKeys
  obtain ⟨keys, hk, -, -, h⟩ := h.keys
  obtain ⟨s, hs, c, a, b, hheld, hP⟩ := h.began hR hp hq
  refine ⟨s, slots_of_childKeys hk ▸ hs, c, a, b, ?_, hP⟩
  exact (mem_slots_iff (hkm.trans hk)).2 ⟨(mem_slotsOf.1 hs).1, hheld⟩

lemma field (hR : Carries P R) (h : Renewed P n p m q) (hk : n.childKeys = .ok keys)
    (hkey : key ∈ keys) (hc : n.get? key = some c.toTree) :
    ∃ d a b, m.get? key = some d.toTree ∧ P c a d b ∧ R p a ∧ R b q := by
  obtain ⟨d, a, b, hd, hP⟩ := h.mem_of_slot hR (slot_of_get? hk hkey hc)
  obtain ⟨-, hheld⟩ := (mem_slots_iff (h.childKeys.trans hk)).1 hd
  exact ⟨d, a, b, hheld.get?, hP⟩

lemma get?_of_flat (h : Renewed P n p m q) (hnode : (n.get key).node? = none)
    (hlist : ∀ xs, n.get key ≠ .list xs) : m.get? key = n.get? key := by
  obtain ⟨keys, -, -, -, h⟩ := h.keys
  refine h.get?_of_ne fun s hs he => ?_
  subst he
  rcases held_iff.1 (mem_slotsOf.1 hs).2 with ⟨hc, -⟩ | ⟨xs, -, hxs, -⟩
  · rw [hc, node?_toTree] at hnode
    cases hnode
  · exact hlist xs hxs

lemma isNull (h : Renewed P n p m q) (hn : (n.get key).isNull = true) :
    (m.get key).isNull = true := by
  have hnull : n.get key = .null := by
    cases hk : n.get key <;> first | rfl | (rw [hk] at hn; cases hn)
  rw [Node.get, h.get?_of_flat (by rw [hnull]; rfl) (by simp [hnull])]
  exact hn

lemma items (hR : Carries P R) (h : Renewed P n p m q) (hk : n.childKeys = .ok keys)
    (hkey : key ∈ keys) (hx : n.get? key = some (.list xs)) :
    ∃ ys, m.get? key = some (.list ys) ∧
      Forall₂ (Seen fun c a d b => P c a d b ∧ R p a ∧ R b q) xs ys := by
  have hget : n.get key = .list xs := by simp [Node.get, hx]
  obtain ⟨keys', hk', -, -, hs⟩ := h.keys
  obtain rfl : keys' = keys := Except.ok.inj (hk'.symm.trans hk)
  obtain ⟨ys, hys, hlen, hother⟩ := hs.list hget
  refine ⟨ys, get?_of_get hys (by simp), forall₂_iff_get.2 ⟨hlen.symm, fun i hi hi' => ?_⟩⟩
  have hxi : xs[i]? = some (xs.get ⟨i, hi⟩) := getElem?_eq_getElem hi
  have hyi : ys[i]? = some (ys.get ⟨i, hi'⟩) := getElem?_eq_getElem hi'
  cases hc : (xs.get ⟨i, hi⟩).node? with
  | none =>
    rw [hother i fun s hs hp => ?_, hxi] at hyi
    · rw [← Option.some.inj hyi]
      exact .other hc
    · have hsk : s.key = key := congrArg Prod.fst hp
      have hsi : s.index = some i := congrArg Prod.snd hp
      rcases held_iff.1 (mem_slotsOf.1 hs).2 with ⟨-, hi⟩ | ⟨zs, j, hz, hj, hij⟩
      · simp [hi] at hsi
      · obtain rfl : xs = zs := list.inj (hget.symm.trans (hsk ▸ hz))
        obtain rfl : j = i := Option.some.inj (hij.symm.trans hsi)
        rw [Option.some.inj (hxi.symm.trans hj), node?_toTree] at hc
        cases hc
  | some c =>
    rw [← toTree_of_node? hc] at hxi ⊢
    obtain ⟨d, a, b, hd, hP⟩ := h.mem_of_slot hR (slot_of_item hk hkey hx hxi)
    obtain ⟨-, hheld⟩ := (mem_slots_iff (h.childKeys.trans hk)).1 hd
    rcases held_iff.1 hheld with ⟨hd, -⟩ | ⟨zs, j, hz, hj, hij⟩
    · rw [hys] at hd
      simp [toTree] at hd
    · obtain rfl : ys = zs := list.inj (hys.symm.trans hz)
      obtain rfl : i = j := by simpa using hij
      rw [Option.some.inj (hyi.symm.trans hj)]
      exact .node hP

lemma get?_cases (hR : Carries P R) (h : Renewed P n p m q) (key : String) :
    m.get? key = n.get? key ∨
      (∃ c d a b, n.get? key = some c.toTree ∧ m.get? key = some d.toTree ∧ P c a d b) ∨
      ∃ xs ys, n.get? key = some (.list xs) ∧ m.get? key = some (.list ys) ∧
        Forall₂ (Seen P) xs ys := by
  obtain ⟨keys, hk, -⟩ := h.keys
  by_cases hkey : key ∈ keys
  · cases hget : n.get? key with
    | none =>
      rw [← hget]
      exact .inl (h.get?_of_flat (by simp [Node.get, hget, node?]) (by simp [Node.get, hget]))
    | some t =>
      cases t with
      | node id kind fields =>
        obtain ⟨d, a, b, hd, hP, -⟩ := h.field hR hk hkey (c := ⟨id, kind, fields⟩) hget
        exact .inr (.inl ⟨⟨id, kind, fields⟩, d, a, b, rfl, hd, hP⟩)
      | list xs =>
        obtain ⟨ys, hys, hseen⟩ := h.items hR hk hkey hget
        refine .inr (.inr ⟨xs, ys, rfl, hys, hseen.imp fun x y hxy => ?_⟩)
        cases hxy with
        | node hc => exact .node hc.1
        | other hx => exact .other hx
      | _ =>
        rw [← hget]
        exact .inl (h.get?_of_flat (by simp [Node.get, hget, node?]) (by simp [Node.get, hget]))
  · exact .inl (h.get? hk hkey)

lemma list (hR : Carries P R) (h : Renewed P n p m q) (hk : n.childKeys = .ok keys)
    (hkey : key ∈ keys) {cs : List Node} (hc : n.get? key = some (.list (cs.map toTree))) :
    ∃ ds : List Node, m.get? key = some (.list (ds.map toTree)) ∧
      Forall₂ (fun c d => ∃ a b, P c a d b ∧ R p a ∧ R b q) cs ds := by
  obtain ⟨ys, hys, hseen⟩ := h.items hR hk hkey hc
  obtain ⟨ds, rfl, hds⟩ := seen_children hseen
  exact ⟨ds, hys, hds⟩

lemma two_fields (hR : Carries P R) (h : Renewed P n p m q) (hk : n.childKeys = .ok keys)
    (hkey : key ∈ keys) (ho : other ∈ keys) (hne : key ≠ other) {d : Node}
    (hc : n.get? key = some c.toTree) (hd : n.get? other = some d.toTree) :
    ∃ x y a b a' b', m.get? key = some x.toTree ∧
      m.get? other = some y.toTree ∧ P c a x b ∧ P d a' y b' ∧ R p a ∧ R p a' ∧
      (R b a' ∨ R b' a) := by
  obtain ⟨keys', hk', -, -, hs⟩ := h.keys
  have hslots := slots_of_childKeys hk'
  have hcs := hslots ▸ slot_of_get? hk hkey hc
  have hds := hslots ▸ slot_of_get? hk ho hd
  obtain ⟨x, y, a, b, a', b', hx, hy, hP⟩ := hs.ordered hR hcs hds (by simpa [Slot.place] using hne)
  exact ⟨x, y, a, b, a', b', hx.get?, hy.get?, hP⟩

lemma keeps (h : Renewed (fun c a d b => I a → I b ∧ d = c) n p m q) (hp : I p) : I q ∧ m = n := by
  refine h.steps (J := fun x a => I a ∧ x = n) ⟨hp, rfl⟩ ?_
  rintro s x c a b hs - hc ⟨ha, rfl⟩
  obtain ⟨hb, rfl⟩ := hc ha
  exact ⟨hb, fill_self hs⟩

lemma progress (hR : Carries P R) (h : Renewed P n p m q) : R p q := by
  obtain ⟨keys, -, -, -, h⟩ := h.keys
  exact h.progress hR

end Renewed

abbrev After (P : Node → Progress σ → Node → Progress σ → Prop) (n : Node) (p : Progress σ)
    (r : Result σ) : Prop :=
  P n p r.node r.progress

lemma swept_of_sweep (hl : Laid n ss) (h : (sweep (visitSlot table) ss n p).outcome = .ok ())
    (hP : ∀ s ∈ ss, ∀ m p, (visitSlot table s m p).outcome = .ok () →
      After P s.child p (visitSlot table s m p)) :
    After (Swept P ss) n p (sweep (visitSlot table) ss n p) := by
  induction ss generalizing n p with
  | nil => exact .nil
  | cons s ss ih =>
    rw [sweep] at h ⊢
    cases ho : (visitSlot table s n p).outcome with
    | error e => simp [ho] at h
    | ok _ =>
      simp only [ho] at h
      exact .cons hl (hP s (by simp) n p ho) (ih (hl.next _) h fun t ht => hP t (by simp [ht]))

lemma renewed_of_visit {place : Place} (hl : Lawful n)
    (h : (visit table n place p).outcome = .ok ())
    (hP : ∀ s ∈ slots n, ∀ m p, (visitSlot table s m p).outcome = .ok () →
      After P s.child p (visitSlot table s m p)) :
    ∃ m q, Renewed P n p m q ∧ visit table n place p = finish table place m q := by
  cases hk : n.childKeys with
  | error e => simp [visit_of_error hk] at h
  | ok keys =>
    obtain ⟨hn, ht⟩ := hl n .refl keys hk
    rw [slots_of_childKeys hk] at hP
    rw [visit_of_childKeys hk] at h ⊢
    cases ho : (sweep (visitSlot table) (slotsOf n keys) n p).outcome with
    | error e => simp [ho] at h
    | ok _ => exact ⟨_, _, ⟨keys, hk, hn, ht, swept_of_sweep (laid_slotsOf hn ht) ho hP⟩, rfl⟩

def Finishes (table : Table σ) (root : Node) (P : Node → Progress σ → Node → Progress σ → Prop) :
    Prop :=
  ∀ n m p q parent key index, Below root n → Renewed P n p m q →
    (finish table ⟨some parent, key, index⟩ m q).outcome = .ok () →
    After P n p (finish table ⟨some parent, key, index⟩ m q)

theorem visit_induction {root : Node} (hl : Lawful root) (step : Finishes table root P)
    (hb : Below root n) {parent : Node} {index : Option Nat}
    (h : (visit table n ⟨some parent, key, index⟩ p).outcome = .ok ()) :
    After P n p (visit table n ⟨some parent, key, index⟩ p) := by
  induction hs : n.toTree.size using Nat.strongRecOn generalizing n parent key index p with
  | ind size ih =>
    obtain ⟨m, q, hr, hv⟩ := renewed_of_visit (P := P) (fun k hk => hl k (hb.trans hk)) h
      fun s hmem m p hok => by
        refine ih _ ?_ (hb.child hmem) hok rfl
        rw [← hs]
        unfold slots at hmem
        split at hmem
        · exact size_child_lt hmem
        · simp at hmem
    rw [hv] at h ⊢
    exact step n m p q parent key index hb hr h

lemma renewed_root {root : Node} (hl : Lawful root) (step : Finishes table root P) {place : Place}
    (h : (visit table root place p).outcome = .ok ()) :
    ∃ m q, Renewed P root p m q ∧ visit table root place p = finish table place m q :=
  renewed_of_visit hl h fun _ hs _ _ => visit_induction hl step (.child .refl hs)

lemma swept_of_visits (hl : Laid n ss) (hI : I p)
    (hv : ∀ s ∈ ss, ∀ m p, Held m s → I p → (visitSlot table s m p).outcome = .ok () ∧
      I (visitSlot table s m p).progress ∧ After P s.child p (visitSlot table s m p)) :
    (sweep (visitSlot table) ss n p).outcome = .ok () ∧
      I (sweep (visitSlot table) ss n p).progress ∧
      After (Swept P ss) n p (sweep (visitSlot table) ss n p) := by
  induction ss generalizing n p with
  | nil => exact ⟨rfl, hI, .nil⟩
  | cons s ss ih =>
    obtain ⟨ho, hI, hP⟩ := hv s (by simp) n p hl.head hI
    obtain ⟨hok, hIq, hrest⟩ := ih (hl.next _) hI fun t ht => hv t (by simp [ht])
    rw [sweep]
    simp only [ho]
    exact ⟨hok, hIq, .cons hl hP hrest⟩

lemma renewed_of_visits (hk : n.childKeys = .ok keys) (hn : keys.Nodup) (ht : "type" ∉ keys)
    (hI : I p)
    (hv : ∀ s ∈ slots n, ∀ m p, Held m s → I p → (visitSlot table s m p).outcome = .ok () ∧
      I (visitSlot table s m p).progress ∧ After P s.child p (visitSlot table s m p)) :
    ∃ m q, Renewed P n p m q ∧ I q ∧ ∀ place, visit table n place p = finish table place m q := by
  rw [slots_of_childKeys hk] at hv
  obtain ⟨ho, hIq, hs⟩ := swept_of_visits (laid_slotsOf hn ht) hI hv
  refine ⟨_, _, ⟨keys, hk, hn, ht, hs⟩, hIq, fun place => ?_⟩
  rw [visit_of_childKeys hk, ho]

end Overload.Visit
