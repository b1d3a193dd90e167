import Mathlib.Data.List.Nodup
import Overload.Proofs.Lowering.Boundary
import Overload.Proofs.Tree.Numbering

/-! Where nodes come from. -/

namespace Overload.Lowering

open Visit List Overload.Tree Node

variable {key : String} {c : Node} {top : Nat}

section Numbers

variable {n : Node} {s t : Visit.Slot} {i : Nat}

lemma id_mem_numbers (n : Node) : n.id ∈ n.toTree.numbers := mem_cons_self

lemma numbers_get? (hk : key ≠ "type") {x : Tree} (hx : n.get? key = some x) :
    x.numbers.Sublist (fieldNumbers n.fields) := by
  rw [get?, if_neg hk] at hx
  rw [fieldNumbers_eq]
  exact sublist_flatten_of_mem (mem_map_of_mem (f := fun f => f.2.numbers)
    (Entries.mem_of_get? hx))

lemma fieldNumbers_held (h : Held n s) (hk : s.key ≠ "type") :
    s.child.toTree.numbers.Sublist (fieldNumbers n.fields) := by
  rcases held_iff.1 h with ⟨hc, -⟩ | ⟨xs, j, hxs, hj, -⟩
  · exact numbers_get? hk (get?_of_get hc (by simp [toTree]))
  · refine .trans ?_ (numbers_get? hk (get?_of_get hxs (by simp)))
    rw [numbers, itemNumbers_eq]
    exact sublist_flatten_of_mem (mem_map_of_mem (mem_of_getElem? hj))

lemma numbers_held (h : Held n s) (hk : s.key ≠ "type") :
    s.child.toTree.numbers.Sublist n.toTree.numbers := .cons _ (fieldNumbers_held h hk)

lemma held_of_slot (hs : s ∈ slots n) : Held n s := by
  unfold slots at hs
  split at hs
  · exact (mem_slotsOf.1 hs).2
  · simp at hs

lemma isChild_of_slot (hs : s ∈ slots n) : ∃ keys, n.childKeys = .ok keys ∧ s.key ∈ keys := by
  unfold slots at hs
  split at hs
  · exact ⟨_, ‹_›, (mem_slotsOf.1 hs).1⟩
  · simp at hs

lemma held_of_get? (h : n.get? key = some c.toTree) : Held n ⟨key, none, c⟩ :=
  held_iff.2 (.inl ⟨by simp [Node.get, h], rfl⟩)

lemma held_of_part (h : n.get key = c.toTree ∨ ∃ xs, n.get key = .list xs ∧ c.toTree ∈ xs) :
    ∃ index, Held n ⟨key, index, c⟩ := by
  rcases h with h | ⟨xs, hxs, hc⟩
  · exact ⟨none, held_iff.2 (.inl ⟨h, rfl⟩)⟩
  · obtain ⟨j, hj⟩ := getElem?_of_mem hc
    exact ⟨some j, held_iff.2 (.inr ⟨xs, j, hxs, hj, rfl⟩)⟩

lemma eq_of_mem_flatMap {α : Type} {f : α → List Nat} {xs : List α} (h : (xs.flatMap f).Nodup)
    {j l : Nat} {x y : α} (hx : xs[j]? = some x) (hy : xs[l]? = some y) (hi : i ∈ f x)
    (hi' : i ∈ f y) : j = l := by
  obtain ⟨hj, rfl⟩ := List.getElem?_eq_some_iff.1 hx
  obtain ⟨hl, rfl⟩ := List.getElem?_eq_some_iff.1 hy
  have hpair := pairwise_iff_getElem.1 (nodup_flatMap.1 h).2
  rcases Nat.lt_trichotomy j l with hlt | rfl | hlt
  · exact absurd hi' (hpair j l hj hl hlt hi)
  · rfl
  · exact absurd hi (hpair l j hl hj hlt hi')

lemma eq_of_held (hn : n.toTree.numbers.Nodup) (hs : Held n s) (ht : Held n t)
    (hsk : s.key ≠ "type") (htk : t.key ≠ "type") (hi : i ∈ s.child.toTree.numbers)
    (hi' : i ∈ t.child.toTree.numbers) : s = t := by
  have hfields : (n.fields.flatMap fun f => f.2.numbers).Nodup := by
    rw [← fieldNumbers_eq]
    exact (nodup_cons.1 hn).2
  -- A number in a field is found at the first entry with its name.
  have hfield {s : Visit.Slot} (hs : Held n s) (hk : s.key ≠ "type")
      (hi : i ∈ s.child.toTree.numbers) :
      ∃ j : Nat, n.fields[j]? = some (s.key, n.get s.key) ∧ i ∈ (n.get s.key).numbers := by
    have hmem : (s.key, n.get s.key) ∈ n.fields ∧ i ∈ (n.get s.key).numbers := by
      rcases held_iff.1 hs with ⟨hc, -⟩ | ⟨xs, j, hxs, hj, -⟩
      · have hget := get?_of_get hc (by simp [toTree])
        rw [get?, if_neg hk] at hget
        exact ⟨hc ▸ Entries.mem_of_get? hget, hc ▸ hi⟩
      · have hget := get?_of_get hxs (by simp)
        rw [get?, if_neg hk] at hget
        refine ⟨hxs ▸ Entries.mem_of_get? hget, ?_⟩
        rw [hxs, numbers, itemNumbers_eq]
        exact mem_flatMap.2 ⟨_, mem_of_getElem? hj, hi⟩
    obtain ⟨j, hj⟩ := getElem?_of_mem hmem.1
    exact ⟨j, hj, hmem.2⟩
  obtain ⟨j, hj, hij⟩ := hfield hs hsk hi
  obtain ⟨l, hl, hil⟩ := hfield ht htk hi'
  obtain rfl := eq_of_mem_flatMap hfields hj hl hij hil
  obtain ⟨hkey, -⟩ := Prod.mk.inj (Option.some.inj (hj.symm.trans hl))
  obtain ⟨key, index, c⟩ := s
  obtain ⟨key', index', d⟩ := t
  obtain rfl : key = key' := hkey
  rcases held_iff.1 hs with ⟨hc, rfl⟩ | ⟨xs, a, hxs, ha, rfl⟩ <;>
    rcases held_iff.1 ht with ⟨hd, rfl⟩ | ⟨ys, b, hys, hb, rfl⟩
  · obtain rfl : c = d := toTree_injective (hc.symm.trans hd)
    rfl
  · cases hc.symm.trans hys
  · cases hd.symm.trans hxs
  · obtain rfl : xs = ys := by simpa using hxs.symm.trans hys
    have hitems : (xs.flatMap numbers).Nodup := by
      have := (nodup_cons.1 hn).2.sublist (numbers_get? hsk (get?_of_get hxs (by simp)))
      rwa [numbers, itemNumbers_eq] at this
    obtain rfl := eq_of_mem_flatMap hitems ha hb hi hi'
    obtain rfl : c = d := toTree_injective (Option.some.inj (ha.symm.trans hb))
    rfl

end Numbers

section Ways

/-- A way down through any fields, with the nodes on it and the fields that are taken, from the
bottom up. -/
inductive Way : Node → Node → List (Node × String) → Prop
  | here {n : Node} : Way n n []
  | step {n y : Node} {s : Visit.Slot} {w : List (Node × String)} : Held n s → s.key ≠ "type" →
      Way s.child y w → Way n y (w ++ [(n, s.key)])

variable {n y z : Node} {ups downs : List Node} {w v : List (Node × String)} {i : Nat}

lemma Way.numbers (h : Way n y w) : y.toTree.numbers.Sublist n.toTree.numbers := by
  induction h with
  | here => exact .refl _
  | step hs hk _ ih => exact ih.trans (numbers_held hs hk)

theorem Way.unique (hn : n.toTree.numbers.Nodup) (h : Way n y w) (h' : Way n z v)
    (hid : y.id = z.id) : w = v ∧ y = z := by
  have hroot {n c : Node} {s : Visit.Slot} {w : List (Node × String)}
      (hn : n.toTree.numbers.Nodup) (hs : Held n s) (hk : s.key ≠ "type") (hc : Way s.child c w) :
      n.id ≠ c.id := by
    intro hid
    refine (nodup_cons.1 hn).1 ((fieldNumbers_held hs hk).subset (hc.numbers.subset ?_))
    exact hid ▸ id_mem_numbers c
  induction h generalizing z v with
  | here =>
    cases h' with
    | here => exact ⟨rfl, rfl⟩
    | step ht hk hz => exact absurd hid (hroot hn ht hk hz)
  | @step n y s w hs hk hy ih =>
    cases h' with
    | here => exact absurd hid.symm (hroot hn hs hk hy)
    | step ht hk' hz =>
      obtain rfl := eq_of_held hn hs ht hk hk' (hy.numbers.subset (id_mem_numbers y))
        (hz.numbers.subset (hid ▸ id_mem_numbers _))
      obtain ⟨rfl, rfl⟩ := ih (hn.sublist (numbers_held hs hk)) hz hid
      exact ⟨rfl, rfl⟩

def IsChild (e : Node × String) : Prop := ∃ keys, e.1.childKeys = .ok keys ∧ e.2 ∈ keys

lemma way_of_path (h : Path n y ups) :
    ∃ w, Way n y w ∧ w.map Prod.fst = ups ∧ ∀ e ∈ w, IsChild e := by
  induction h with
  | here => exact ⟨[], .here, rfl, by simp⟩
  | @step n y s ups hs _ ih =>
    obtain ⟨w, hw, hups, hall⟩ := ih
    refine ⟨w ++ [(n, s.key)], .step (held_of_slot hs) (key_ne_type hs) hw, by simp [hups], ?_⟩
    rw [forall_mem_append, forall_mem_singleton]
    exact ⟨hall, isChild_of_slot hs⟩

lemma mem_numbers_of_path (h : Path n y ups) : y.id ∈ n.toTree.numbers := by
  obtain ⟨w, hw, -⟩ := way_of_path h
  exact hw.numbers.subset (id_mem_numbers y)

def Hidden (n : Node) (i : Nat) : Prop := ∃ y w, Way n y w ∧ y.id = i ∧ ∃ e ∈ w, ¬IsChild e

lemma Hidden.up {s : Visit.Slot} (h : Hidden s.child i) (hs : Held n s) (hk : s.key ≠ "type") :
    Hidden n i := by
  obtain ⟨y, w, hw, hid, e, he, hno⟩ := h
  exact ⟨y, _, .step hs hk hw, hid, e, mem_append_left _ he, hno⟩

lemma not_hidden (hn : n.toTree.numbers.Nodup) (h : Path n y ups) : ¬Hidden n y.id := by
  rintro ⟨z, v, hv, hid, e, he, hno⟩
  obtain ⟨w, hw, -, hall⟩ := way_of_path h
  obtain ⟨rfl, -⟩ := hw.unique hn hv hid.symm
  exact hno (hall e he)

lemma path_unique (hn : n.toTree.numbers.Nodup) (h : Path n y ups) (h' : Path n z downs)
    (hid : y.id = z.id) : ups = downs ∧ y = z := by
  obtain ⟨w, hw, rfl, -⟩ := way_of_path h
  obtain ⟨v, hv, rfl, -⟩ := way_of_path h'
  obtain ⟨rfl, rfl⟩ := hw.unique hn hv hid
  exact ⟨rfl, rfl⟩

end Ways

def From (n : Node) (p i : Nat) : Prop := i ∈ n.toTree.numbers ∨ p ≤ i

structure Given (least : Nat) (n : Node) : Prop where
  old : ∀ i ∈ n.toTree.numbers, i < least
  nodup : n.toTree.numbers.Nodup

namespace Given

variable {least : Nat} {n m : Node}

lemma id_lt (h : Given least n) : n.id < least := h.old _ (id_mem_numbers n)

lemma of_sublist (h : Given least n) (hs : m.toTree.numbers.Sublist n.toTree.numbers) :
    Given least m :=
  ⟨fun i hi => h.old i (hs.subset hi), h.nodup.sublist hs⟩

lemma child (h : Given least n) {s : Visit.Slot} (hs : s ∈ slots n) : Given least s.child :=
  h.of_sublist (numbers_held (held_of_slot hs) (key_ne_type hs))

lemma below (h : Given least n) (hb : Below n m) : Given least m := by
  induction hb with
  | refl => exact h
  | child _ hs ih => exact ih.child hs

lemma parts (h : Given least n) (hk : key ≠ "type") : Parts (Given least) (n.get key) := by
  intro c hc
  obtain ⟨index, hheld⟩ := held_of_part hc
  exact h.of_sublist (numbers_held hheld hk)

lemma sealed (h : Given least n) : Sealed least n := by
  intro f ups hp hf
  exact absurd (h.old _ (mem_numbers_of_path hp)) (Nat.not_lt.2 hf)

end Given

variable {least : Nat}

structure Donor (least top : Nat) (m : Node) : Prop where
  parts : ∀ key ∈ donated, Parts (fun c => Sealed least c ∧ c.id < top) (m.get key)
  apart : ∀ a b : Node, m.get? "local" = some a.toTree → m.get? "exported" = some b.toTree →
    a.id ≠ b.id

structure Fine (least : Nat) (n : Node) (p top : Nat) (c : Node) : Prop where
  sealed : Sealed least c
  donor : Donor least top c
  below : c.id < top
  origin : From n p c.id

lemma Donor.mono {top' : Nat} {m : Node} (h : Donor least top m) (ht : top ≤ top') :
    Donor least top' m :=
  ⟨fun key hkey => (h.parts key hkey).mono fun _ hc => ⟨hc.1, Nat.lt_of_lt_of_le hc.2 ht⟩,
    h.apart⟩

lemma donor_of_lacking {m : Node} (h : ∀ key ∈ donated, m.get? key = none) :
    Donor least top m where
  parts key hkey := by simp [Node.get, h key hkey]
  apart a b ha := by simp [h "local" (by decide)] at ha

lemma Fine.lift {n m : Node} {p p' top' : Nat} (h : Fine least n p top c)
    (hn : n.toTree.numbers ⊆ m.toTree.numbers) (hp : p' ≤ p) (ht : top ≤ top') :
    Fine least m p' top' c :=
  ⟨h.sealed, h.donor.mono ht, Nat.lt_of_lt_of_le h.below ht,
    h.origin.imp (fun hi => hn hi) (Nat.le_trans hp)⟩

lemma ne_type_of_donated (h : key ∈ donated) : key ≠ "type" := by
  rintro rfl
  revert h
  decide

lemma fine_of_given {n : Node} {p : Nat} (h : Given least c) (ht : least ≤ top)
    (ho : c.id ∈ n.toTree.numbers) : Fine least n p top c where
  sealed := h.sealed
  donor := by
    refine ⟨fun key hkey => ?_, fun a b ha hb hab => ?_⟩
    · exact (h.parts (ne_type_of_donated hkey)).mono fun d hd =>
        ⟨hd.sealed, Nat.lt_of_lt_of_le hd.id_lt ht⟩
    · have := eq_of_held h.nodup (held_of_get? ha) (held_of_get? hb) (by simp) (by simp)
        (id_mem_numbers a) (hab ▸ id_mem_numbers b)
      simp at this
  below := Nat.lt_of_lt_of_le h.id_lt ht
  origin := .inl ho

end Overload.Lowering
