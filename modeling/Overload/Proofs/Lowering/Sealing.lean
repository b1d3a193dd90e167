import Overload.Proofs.Lowering.Origin
import Overload.Proofs.Lowering.Visits

/-! Every rule leaves sealed functions behind, and so does the whole visit. -/

namespace Overload.Lowering

open Visit Node

structure GoodExport (least : Nat) (e : Export) : Prop where
  declaration : Parts (Sealed least) e.declaration
  exported : Parts (Sealed least) e.exported
  differ : sameNode e.exported e.declaration = false

def GoodExports (least : Nat) (s : State) : Prop := ∀ e ∈ s.exports, GoodExport least e

structure Ready (least : Nat) (p : Progress State) : Prop where
  next : least ≤ p.next
  exports : GoodExports least p.state

def Sound (least : Nat) (n : Node) (p : Progress State) (m : Node) (q : Progress State) : Prop :=
  p.next ≤ q.next ∧ (Ready least p → Ready least q ∧ Fine least n p.next q.next m)

def Proceeds (least : Nat) (p q : Progress State) : Prop :=
  p.next ≤ q.next ∧ (Ready least p → Ready least q)

variable {least : Nat}

lemma carries_sound : Carries (Sound least) (Proceeds least) where
  refl _ := ⟨Nat.le_refl _, id⟩
  trans h h' := ⟨Nat.le_trans h.1 h'.1, fun hp => h'.2 (h.2 hp)⟩
  of_visit h := ⟨h.1, fun hp => (h.2 hp).1⟩

section Renewed

variable {n m : Node} {p q : Progress State} (hp : Ready least p)
  (hr : Renewed (Sound least) n p m q)
include hp hr

lemma fine_slot {t : Visit.Slot} (ht : t ∈ slots m) : Fine least n p.next q.next t.child := by
  obtain ⟨s, hs, -, a, b, hP, ha, hb⟩ := hr.slot_of_mem carries_sound ht
  exact (hP.2 (ha.2 hp)).2.lift
    (numbers_held (held_of_slot hs) (Tree.key_ne_type hs)).subset ha.1 hb.1

lemma fine_field (hg : Given least n) {key : String} (hk : key ≠ "type") :
    Parts (Fine least n p.next q.next) (m.get key) := by
  obtain ⟨keys, hkeys, -⟩ := hr.keys
  by_cases hkey : key ∈ keys
  · exact parts_of_slots (hr.childKeys.trans hkeys) hkey fun t => fine_slot hp hr
  · have hle := Nat.le_trans hp.next (hr.progress carries_sound).1
    have hget : m.get key = n.get key := by rw [Node.get, hr.get? hkeys hkey, Node.get]
    intro c hc
    rw [hget] at hc
    obtain ⟨index, hheld⟩ := held_of_part hc
    exact fine_of_given (hg.parts hk c hc) hle
      ((numbers_held hheld hk).subset (id_mem_numbers c))

lemma source_field {key : String} {a : Node} (ha : m.get? key = some a.toTree) :
    ∃ c : Node, n.get? key = some c.toTree ∧
      (a.id ∈ c.toTree.numbers ∨ least ≤ a.id ∧ ∃ keys, n.childKeys = .ok keys ∧ key ∈ keys) := by
  obtain ⟨keys, hkeys, -⟩ := hr.keys
  by_cases hkey : key ∈ keys
  · obtain ⟨s, hs, hplace, x, y, hP, hx, -⟩ :=
      hr.slot_of_mem carries_sound (slot_of_get? (hr.childKeys.trans hkeys) hkey ha)
    obtain ⟨hsk, hsi⟩ := Prod.mk.inj hplace
    dsimp only at hsk hsi
    obtain ⟨-, hheld⟩ := (mem_slots_iff hkeys).1 hs
    have hget : n.get? key = some s.child.toTree := by
      rcases held_iff.1 hheld with ⟨hc, -⟩ | ⟨xs, i, -, -, hi⟩
      · exact hsk ▸ get?_of_get hc (by simp [toTree])
      · rw [hsi] at hi
        cases hi
    have hpx := hx.2 hp
    refine ⟨s.child, hget, (hP.2 hpx).2.origin.imp id fun h => ?_⟩
    exact ⟨Nat.le_trans hpx.next h, keys, hkeys, hkey⟩
  · rw [hr.get? hkeys hkey] at ha
    exact ⟨a, ha, .inl (id_mem_numbers a)⟩

lemma apart_fields (hg : Given least n) {key other : String} (hk : key ≠ "type") (ho : other ≠ "type")
    (hne : key ≠ other) {a b : Node} (ha : m.get? key = some a.toTree)
    (hb : m.get? other = some b.toTree) : a.id ≠ b.id := by
  obtain ⟨c, hc, hac⟩ := source_field hp hr ha
  obtain ⟨d, hd, hbd⟩ := source_field hp hr hb
  have hold {x : Node} {name : String} (hx : name ≠ "type") (hget : n.get? name = some x.toTree)
      {i : Nat} (hi : i ∈ x.toTree.numbers) : i < least :=
    hg.old i ((numbers_held (held_of_get? hget) hx).subset hi)
  rcases hac with hac | ⟨hac, keys, hkeys, hkey⟩ <;> rcases hbd with hbd | ⟨hbd, keys', hkeys', hkey'⟩
  · intro hab
    have := eq_of_held hg.nodup (held_of_get? hc) (held_of_get? hd) hk ho hac (hab ▸ hbd)
    simp [hne] at this
  · have := hold hk hc hac
    omega
  · have := hold ho hd hbd
    omega
  · obtain rfl : keys = keys' := Except.ok.inj (hkeys.symm.trans hkeys')
    obtain ⟨x, y, u, v, u', v', hx, hy, hP, hP', hu, hu', horder⟩ :=
      hr.two_fields carries_sound hkeys hkey hkey' hne hc hd
    obtain rfl : x = a := toTree_injective (Option.some.inj (hx.symm.trans ha))
    obtain rfl : y = b := toTree_injective (Option.some.inj (hy.symm.trans hb))
    have hfx := (hP.2 (hu.2 hp)).2
    have hfy := (hP'.2 (hu'.2 hp)).2
    have hux : u.next ≤ x.id := hfx.origin.resolve_left fun h => by
      have := hold hk hc h
      omega
    have huy : u'.next ≤ y.id := hfy.origin.resolve_left fun h => by
      have := hold ho hd h
      omega
    have hxv := hfx.below
    have hyv := hfy.below
    rcases horder with h | h
    · have := h.1
      omega
    · have := h.1
      omega

lemma fine_renewed (hg : Given least n) : Fine least n p.next q.next m where
  sealed := .of_slots (fun _ => hr.id ▸ hg.id_lt) fun t ht => (fine_slot hp hr ht).sealed
  donor := by
    refine ⟨fun key hkey => ?_, fun a b => apart_fields hp hr hg (by decide) (by decide) (by decide)⟩
    exact (fine_field hp hr hg (ne_type_of_donated hkey)).mono fun c hc => ⟨hc.sealed, hc.below⟩
  below := by
    have hid := hg.id_lt
    have := hp.next
    have := (hr.progress carries_sound).1
    rw [hr.id]
    omega
  origin := .inl (hr.id ▸ id_mem_numbers n)

end Renewed

section Step

variable {n m m' : Node} {p q q' : Progress State} {top : Nat} {place : Place}

lemma sameNode_eq_false {t u : Tree}
    (h : ∀ a b : Node, t = a.toTree → u = b.toTree → a.id ≠ b.id) : sameNode t u = false := by
  unfold sameNode
  split
  · rename_i a b ha hb
    simpa using h a b (Tree.toTree_of_node? ha).symm (Tree.toTree_of_node? hb).symm
  · rfl

lemma sameNode_of_lt {t u : Tree} {c : Node} (hu : u = c.toTree) (hc : top ≤ c.id)
    (ht : Parts (·.id < top) t) : sameNode t u = false ∧ sameNode u t = false := by
  subst hu
  have hne (a : Node) (ha : t = a.toTree) : a.id ≠ c.id := by
    have := ht a (.inl ha)
    omega
  constructor
  · refine sameNode_eq_false fun a b ha hb => ?_
    exact toTree_injective hb ▸ hne a ha
  · refine sameNode_eq_false fun a b ha hb => ?_
    exact toTree_injective ha ▸ (hne b hb).symm

lemma calledImporter_new (k : Nat) (s : State) (source : Tree) :
    ∃ c : Node, calledImporter k s source = c.toTree ∧ k ≤ c.id := by
  unfold calledImporter
  cases s.importIsAsync
  · exact ⟨⟨_, _, _⟩, rfl, Nat.le_add_right k 1⟩
  · exact ⟨⟨_, _, _⟩, rfl, Nat.le_add_right k 2⟩

section Fields

variable (hf : ∀ key, key ≠ "type" → Parts (Fine least n p.next top) (m.get key))
include hf

lemma donor_specifier {xs : List Tree} (hs : Specifiers m xs) {c : Node} (hc : c.toTree ∈ xs) :
    Donor least top c := (mem_elements hs (hf "specifiers" (by decide)) hc).donor

lemma donates_specifier {xs : List Tree} (hs : Specifiers m xs) {x : Tree} (hx : x ∈ xs) :
    Donates donated (Parts fun c => Sealed least c ∧ c.id < top) x := by
  intro key hkey u hu
  obtain ⟨c, rfl, hget⟩ := attr_toTree_eq_ok hu
  have := (donor_specifier hf hs hx).parts key hkey
  rwa [Node.get, hget] at this

lemma gives_sealed : Gives (fun _ => True) (Parts (Sealed least)) m :=
  gives_of_fields (fun key hne => (hf key hne).mono fun _ h => h.sealed)
    fun _ hxs _ hx key hkey u hu => (donates_specifier hf hxs hx key hkey u hu).mono fun _ h => h.1

lemma Recorded.differ {s : State} {e : Export} (h : Recorded m top s e) :
    sameNode e.exported e.declaration = false := by
  have hold {key : String} (hne : key ≠ "type") : Parts (·.id < top) (m.get key) :=
    (hf key hne).mono fun _ h => h.below
  cases h with
  | @names name key i l _ _ _ _ hne =>
    refine sameNode_eq_false fun a b ha hb => ?_
    have hl : l = a.id := congrArg Node.id (toTree_injective (n := ⟨l, _, _⟩) ha)
    have hi : i = b.id := congrArg Node.id (toTree_injective (n := ⟨i, _, _⟩) hb)
    exact hl ▸ hi ▸ hne.symm
  | bound _ hs hmem hbound hexported =>
    refine sameNode_eq_false fun a b ha hb => ?_
    subst ha hb
    obtain ⟨c, rfl, hlocal⟩ := attr_toTree_eq_ok hbound
    exact ((donor_specifier hf hs hmem).apart b a hlocal (attr_eq_ok.1 hexported)).symm
  | @passed xs x exported name i _ _ hs hmem hi hexported =>
    have hparts := donates_specifier hf hs hmem "exported" (by decide) _ hexported
    exact (sameNode_of_lt (c := ⟨i + 2, _, _⟩) rfl (show top ≤ i + 2 by omega)
      (hparts.mono fun _ h => h.2)).1
  | @value _ i _ hd hi =>
    have hparts := hold (show "declaration" ≠ "type" by decide)
    rw [Node.get, hd] at hparts
    exact (sameNode_of_lt (c := ⟨i, _, _⟩) rfl hi hparts).2
  | all =>
    obtain ⟨c, hc, hle⟩ := calledImporter_new top _ _
    exact (sameNode_of_lt hc hle (hold (by decide))).1

lemma goodExports_declared {j : Nat} {s s' : State} {t : Tree} (h : Declared m top s t j s')
    (hs : GoodExports least s) : GoodExports least s' := by
  intro e he
  rcases h.adds.mem he with he | hr
  · exact hs e he
  · obtain ⟨hd, hx⟩ := hr.parts builds_sealed (gives_sealed hf)
    exact ⟨hd, hx, hr.differ hf⟩

lemma fine_declared {j : Nat} {s s' : State} {new : Node} (h : Declared m top s new.toTree j s')
    (hp : p.next ≤ top) (hj : top ≤ j) : Fine least n p.next j new := by
  rcases h.fresh with hget | ⟨hle, hlt, hlack⟩
  · have hfine := hf "declaration" (by decide)
    rw [Node.get, hget] at hfine
    exact (parts_toTree.1 hfine).lift (List.Subset.refl _) (Nat.le_refl _) hj
  · exact ⟨parts_toTree.1 (h.parts builds_sealed (gives_sealed hf)), donor_of_lacking hlack, hlt,
      .inr (by omega)⟩

end Fields

lemma fine_step (hg : Given least n) (hp : Ready least p) (hr : Renewed (Sound least) n p m q)
    (hs : Turned m q m' q') (hext : Extends q q') :
    Ready least q' ∧ Fine least n p.next q'.next m' := by
  obtain ⟨hpq, hready⟩ := hr.progress carries_sound
  have hq := hready hp
  have hnext := Nat.le_trans hq.next hext.next
  have hfields : ∀ key, key ≠ "type" → Parts (Fine least n p.next q.next) (m.get key) :=
    fun _ => fine_field hp hr hg
  cases hs with
  | still _ _ hsim =>
    refine ⟨⟨hnext, ?_⟩, fine_renewed (q := q) hp hr hg⟩
    rw [GoodExports, hsim]
    exact hq.exports
  | operator ho _ hrew =>
    obtain ⟨hle, hlt, hlack⟩ := hrew.fresh
    refine ⟨⟨hnext, ?_⟩, ?_, donor_of_lacking hlack, hlt, .inr (by omega)⟩
    · rw [GoodExports, hrew.exports]
      exact hq.exports
    · exact parts_toTree.1 (hrew.parts builds_sealed (fun key hkey =>
        (hfields key (ne_type_of_operand ho hkey)).mono fun _ h => h.sealed) fun _ _ _ _ => trivial)
  | declaration hd =>
    exact ⟨⟨hnext, goodExports_declared hfields hd hq.exports⟩,
      fine_declared hfields hd hpq hext.next⟩

lemma sound_step (hg : Given least n) (hr : Renewed (Sound least) n p m q)
    (hs : Turned m q m' q') (hext : Extends q q') : Sound least n p m' q' :=
  ⟨Nat.le_trans (hr.progress carries_sound).1 hext.next, fun hp => fine_step hg hp hr hs hext⟩

lemma Lowers.sound (h : Lowers n p m q) (hg : Given least n) : Sound least n p m q :=
  h.induction fun _ _ _ _ _ _ hb hr hs hext => sound_step (hg.below hb) hr hs hext

lemma Closes.sealed {k j : Nat} {s : State} (h : Closes m k s m' j)
    (hb : Parts (Sealed least) (m.get "body")) (he : GoodExports least s) : Sealed least m' := by
  obtain ⟨hblock, hslots⟩ := h.parts hb fun _ t _ ht => returned_parts ht builds_sealed.grows fun e hmem =>
    exportable_of_differ (he e hmem).declaration (he e hmem).exported (he e hmem).differ
  exact SealedIn.of_kind (is_iff.1 hblock) (by decide) fun c hc => (hslots c hc).under _

lemma sealed_root {root : Node} (hg : Given least root) (hp : Ready least p)
    (hr : Renewed (Sound least) root p m q) (hs : Stepped ⟨none, "", none⟩ m q m' q')
    (hext : Extends q q') : Sealed least m' := by
  cases hs with
  | turned ht => exact (fine_step hg hp hr ht hext).2.sealed.landed (hr.id ▸ hg.id_lt)
  | program _ _ hc =>
    exact hc.sealed ((fine_field hp hr hg (by decide)).mono fun _ h => h.sealed)
      ((hr.progress carries_sound).2 hp).exports

end Step

end Overload.Lowering
