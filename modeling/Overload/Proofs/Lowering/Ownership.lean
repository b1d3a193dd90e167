import Overload.Proofs.Lowering.Accounting
import Overload.Proofs.Lowering.Pausing
import Overload.Proofs.Lowering.Fixpoint

/-! Nothing gets into two places during a lowering. -/

namespace Overload.Lowering

open Visit List Overload.Tree Object

variable {v : View} {c : Object → Nat}

section Visits

variable {options : Options} {least : Nat} {n m m' : Node} {p q q' : Progress State}

structure Balanced (v : View) (c : Object → Nat) (n : Node) (p : Progress State) (m : Node)
    (q : Progress State) : Prop where
  next : p.next ≤ q.next
  weight : m.toTree.weight v c + recorded v c q.state ≤
    n.toTree.weight v c + recorded v c p.state + numbered c p.next q.next

lemma Balanced.trans {k : Node} {r : Progress State} (h : Balanced v c n p m q)
    (h' : Balanced v c m q k r) : Balanced v c n p k r where
  next := h.next.trans h'.next
  weight := by
    have hglue := numbered_glue (c := c) h.next h'.next
    have := h.weight
    have := h'.weight
    omega

lemma balanced_renewed {I : Progress State → Prop}
    (h : Renewed (fun n p m q => I p → I q ∧ Balanced v c n p m q) n p m q) (hc : Counted v n)
    (hp : I p) : I q ∧ Balanced v c n p m q := by
  have hself : Balanced v c n p n p := ⟨Nat.le_refl _, by rw [numbered_self]; omega⟩
  refine (h.steps (J := fun x a => Counted v x ∧ I a ∧ Balanced v c n p x a) ⟨hc, hp, hself⟩ ?_).2
  rintro s x d a b hs hkey hd ⟨hx, ha, hbalanced⟩
  obtain ⟨hb, hchild⟩ := hd ha
  refine ⟨counted_fill hx hkey _ _, hb, hbalanced.trans ⟨hchild.next, ?_⟩⟩
  have hfill := weight_fill (c := c) hs hx hkey d
  have := hchild.weight
  omega

structure Prepared (v : View) (options : Options) (least : Nat) (p : Progress State) : Prop where
  next : least ≤ p.next
  fit : Fit options p

variable (hv : ∀ i, least ≤ i → v.made i = true)
include hv

lemma balanced_step (hf : FormedBelow n) (hr : Renewed Lowers n p m q)
    (hs : Turned m q m' q') (hext : Extends q q') (hp : Prepared v options least p)
    (hq : Prepared v options least q) : Prepared v options least q' ∧
      (m' = m ∧ recorded v c q'.state = recorded v c q.state ∨
        (∃ kind ∈ dissolved, m.is kind = true) ∧
          m'.toTree.weight v c + recorded v c q'.state + c (.node m.id) ≤
            m.toTree.weight v c + recorded v c q.state + numbered c q.next q'.next) := by
  have harrives : Renewed (Arrives options) n p m q :=
    hr.mono fun s hs _ _ _ h => h.arrives fun k hk => hf k (.head hs hk)
  have hdone : ∀ t ∈ slots m, Done options t.child := fun _ => done_slot harrives hp.fit
  have hnew (i : Nat) (hi : q.next ≤ i) : v.made i = true := hv i (hq.next.trans hi)
  refine ⟨⟨hq.next.trans hext.next, (hs.done harrives (hf n .refl) hp.fit hext).1⟩, ?_⟩
  cases hs with
  | still _ _ hsim =>
    exact .inl ⟨rfl, recorded_of_eq (by rw [hsim])⟩
  | @operator kind keys new k s ho hk hrew =>
    have hweight := hrew.weight_le (c := c) hnew fun key hkey name hname =>
      hname.isText (parts_of_slots (childKeys_of_operands ho hk) hkey hdone)
    refine .inr ⟨⟨kind, mem_append_left _ (mem_map_of_mem ho), hk⟩, ?_⟩
    rw [recorded_of_eq hrew.exports]
    dsimp only
    omega
  | @declaration new k s hd =>
    obtain ⟨kind, hmem, hk⟩ := hd.is_module
    exact .inr ⟨⟨kind, mem_append_right _ hmem, hk⟩,
      hd.weight_le hnew fun name hname => hname.isText hdone⟩

lemma Lowers.balanced (h : Lowers n p m q) (hc : ∀ k, Below n k → Counted v k)
    (hf : FormedBelow n) (hp : Prepared v options least p) :
    Prepared v options least q ∧ Balanced v c n p m q := by
  revert hp
  refine h.recursion (P := fun n p m q => Prepared v options least p →
    Prepared v options least q ∧ Balanced v c n p m q) ?_
  intro k m p q m' q' hb hr hs hext hp
  obtain ⟨hq, hbalanced⟩ := balanced_renewed (hr.mono fun _ _ _ _ _ h => h.2) (hc k hb) hp
  obtain ⟨hq', hstep⟩ := balanced_step (c := c) hv (fun l hl => hf l (hb.trans hl))
    (hr.mono fun _ _ _ _ _ h => h.1) hs hext hp hq
  refine ⟨hq', hbalanced.trans ⟨hext.next, ?_⟩⟩
  rcases hstep with ⟨rfl, hrec⟩ | ⟨-, hweight⟩ <;> omega

end Visits

section Root

/-- Nodes with new numbers are made by rules, and so is what a root of these kinds turns into. -/
def viewAfter (root : Node) (next : Nat) : View :=
  ⟨fun i => decide (next ≤ i) || i == root.id && ("Program" :: dissolved).any root.is⟩

variable {root n m m' : Node} {next : Nat}

lemma made_of_le {i : Nat} (h : next ≤ i) : (viewAfter root next).made i = true := by
  simp [viewAfter, h]

lemma numbers_below {n m : Node} (h : Below n m) :
    m.toTree.numbers.Sublist n.toTree.numbers := by
  induction h with
  | refl => exact .refl _
  | child _ hs ih => exact (numbers_held (held_of_slot hs) (key_ne_type hs)).trans ih

lemma counted_below (hg : Given next root) (hb : Below root n) :
    Counted (viewAfter root next) n := by
  have hold : ¬next ≤ n.id := Nat.not_le.2 (hg.below hb).id_lt
  rcases below_iff.1 hb with rfl | ⟨s, hs, hbelow⟩
  · by_cases hany : ("Program" :: dissolved).any n.is = true
    · obtain ⟨kind, hmem, hk⟩ := any_eq_true.1 hany
      have hall : ∀ kind ∈ "Program" :: dissolved, kind ∉ ownLists.map (·.1) := by decide
      intro name
      rw [Node.is_iff.1 hk]
      exact View.extent_of_kind _ _ (hall kind hmem) name
    · exact counted_of_not_made (by simpa [viewAfter, hold] using hany)
  · have hid : n.id ≠ root.id := by
      intro he
      refine (nodup_cons.1 hg.nodup).1 (he ▸ ?_)
      exact (fieldNumbers_held (held_of_slot hs) (key_ne_type hs)).subset
        ((numbers_below hbelow).subset (id_mem_numbers n))
    exact counted_of_not_made (by simp [viewAfter, hold, hid])

lemma weight_overwrite (hm : v.made m.id = true) (new : Node) :
    (m.overwrite new).toTree.weight v c ≤ new.toTree.weight v c + c (.node m.id) := by
  have hfields : fieldsWeight v c (v.extent m.id new.kind) new.fields ≤
      fieldsWeight v c (v.extent new.id new.kind) new.fields := by
    refine fieldsWeight_mono fun f _ => ?_
    cases hnew : v.made new.id with
    | true =>
      have : v.extent m.id new.kind f.1 = v.extent new.id new.kind f.1 := by
        simp [View.extent, hm, hnew]
      rw [this]
    | false =>
      rw [counted_of_not_made hnew f.1]
      exact extentWeight_le _ _
  rw [Node.weight_toTree, Node.weight_toTree]
  change c (.node m.id) + (new.kind.weight v c + fieldsWeight v c (v.extent m.id new.kind)
    new.fields) ≤ _
  omega

end Root

section Runs

variable {root root' m : Node} {next : Nat} {options : Options} {p q q' : Progress State}

lemma weight_visit (hl : Lawful root) (hg : Given next root) (hf : FormedBelow root)
    {start : State} (he : start.exports = []) (ho : start.options = options)
    (hvisit : visit builtinRules root ⟨none, "", none⟩ ⟨next, [], start⟩ = ⟨.ok (), root', q'⟩)
    (c : Object → Nat) : root'.toTree.weight (viewAfter root next) c ≤
      root.toTree.weight (viewAfter root next) c + numbered c next q'.next := by
  obtain ⟨m, q, hr, hs, hext⟩ := lowered_step hl hvisit
  have hv : ∀ i, next ≤ i → (viewAfter root next).made i = true := fun _ => made_of_le
  have hcounted : ∀ k, Below root k → Counted (viewAfter root next) k := fun _ =>
    counted_below hg
  have hp : Prepared (viewAfter root next) options next ⟨next, [], start⟩ :=
    ⟨Nat.le_refl _, ho, by simp [DoneExports, he]⟩
  obtain ⟨hq, hbalanced⟩ := balanced_renewed (I := Prepared (viewAfter root next) options next)
    (hr.mono fun s hs _ _ _ h hp => h.balanced (c := c) hv (fun k hk => hcounted k (.head hs hk))
      (fun k hk => hf k (.head hs hk)) hp) (hcounted root .refl) hp
  have hready : Ready next ⟨next, [], start⟩ := ⟨Nat.le_refl _, by simp [GoodExports, he]⟩
  have hgood := ((hr.mono fun s hs _ _ _ h =>
    Lowers.sound h (hg.child hs)).progress carries_sound).2 hready
  have hstart : recorded (viewAfter root next) c start = 0 := by simp [recorded, he]
  have hweight := hbalanced.weight
  have hglue := numbered_glue (c := c) hbalanced.next hext.next
  dsimp only at hweight hglue
  have hid := hr.id
  cases hs with
  | turned ht =>
    obtain ⟨-, hstep⟩ := balanced_step (c := c) hv hf hr ht hext hp hq
    rcases hstep with ⟨rfl, hrec⟩ | ⟨⟨kind, hmem, hk⟩, hnew⟩
    · rw [landed_self]
      omega
    · have hmade : (viewAfter root next).made m.id = true := by
        rw [hr.is] at hk
        have hany : ("Program" :: dissolved).any root.is = true :=
          any_eq_true.2 ⟨kind, mem_cons_of_mem _ hmem, hk⟩
        simp only [viewAfter, hid, hany, beq_self_eq_true, Bool.and_true, Bool.or_true]
      have hover := weight_overwrite (c := c) hmade ‹_›
      change (m.overwrite _).toTree.weight _ c ≤ _
      omega
  | program _ hprogram hcloses =>
    rw [hr.is] at hprogram
    have hmade : (viewAfter root next).made m.id = true := by simp [viewAfter, hid, hprogram]
    have hm : Counted (viewAfter root next) m := by
      have hkind : m.kind = root.kind :=
        (Node.is_iff.1 ((hr.is _).trans hprogram)).trans (Node.is_iff.1 hprogram).symm
      exact fun name => by rw [hid, hkind]; exact hcounted root .refl name
    obtain ⟨-, hclosed⟩ := hcloses.weight_le (c := c) hm hmade
      (fun e he => (hgood.exports e he).differ) fun i hi => hv i (hq.next.trans hi)
    dsimp only at hglue ⊢
    omega

lemma Way.places_le {v : View} {i : Nat} {n y : Node} {w : List (Node × String)} (h : Way n y w) :
    y.toTree.places v i ≤ n.toTree.places v i := by
  induction h with
  | here => exact Nat.le_refl _
  | @step n y s w hs hk _ ih =>
    have hfield := places_fields_le (v := v) (i := i) n [s.key] (nodup_singleton _)
      (by simpa using Ne.symm hk)
    have hheld := places_held_le (v := v) (i := i) hs
    simp only [map_cons, map_nil, sum_cons, sum_nil] at hfield
    omega

lemma sum_isNode (i : Nat) (xs : List Nat) :
    (xs.map fun j => Object.isNode i (.node j)).sum = xs.count i := by
  induction xs with
  | nil => rfl
  | cons x xs ih =>
    rw [map_cons, sum_cons, ih, count_cons, Nat.add_comm]
    simp [Object.isNode]

lemma objects_given (d : Data) (k : Nat) {root : Node} (hroot : (ofData d k).1 = root.toTree)
    {next : Nat} (hnext : (ofData d k).2 ≤ next) :
    root.toTree.objects (viewAfter root next) = root.toTree.objects .all := by
  have hg := given_ofData d k hroot hnext
  have hextent : (viewAfter root next).extent root.id root.kind =
      View.all.extent root.id root.kind := by
    rw [View.extent_all]
    exact funext (counted_below hg .refl)
  cases d with
  | object es =>
    rw [ofData] at hroot hnext
    split at hroot
    · rename_i kind hkind
      obtain rfl : root = ⟨k, plain kind, _⟩ := Node.toTree_injective hroot.symm
      simp only [hkind] at hnext
      dsimp only at hextent
      rw [Node.toTree, objects, objects, hextent, objects_plain kind (w := .all),
        fieldObjects_ofEntries es (k + 1) _ fun i hi hlt => ?_]
      have hid : i ≠ k := by omega
      simp [viewAfter, hid]
      omega
    · cases hroot
  | _ => cases hroot

lemma places_visit {d : Data} {k : Nat} (hl : Lawful root)
    (hroot : (ofData d k).1 = root.toTree) (hnext : (ofData d k).2 ≤ next)
    (hf : FormedBelow root) {start : State} (he : start.exports = [])
    (hvisit : visit builtinRules root ⟨none, "", none⟩ ⟨next, [], start⟩ = ⟨.ok (), root', q'⟩)
    (i : Nat) : root'.toTree.places (viewAfter root next) i ≤ 1 := by
  have hg := given_ofData d k hroot hnext
  have hdisjoint : (root.toTree.numbers ++ range' next (q'.next - next)).Nodup := by
    refine Nodup.append hg.nodup nodup_range' fun j hj hj' => ?_
    have := hg.old j hj
    have := (mem_range'_1.1 hj').1
    omega
  have hgiven : root.toTree.places .all i = root.toTree.numbers.count i :=
    hroot ▸ places_ofData d k
  have hle := weight_visit hl hg hf he rfl hvisit (Object.isNode i)
  rw [weight, weight, objects_given d k hroot hnext, numbered, sum_isNode] at hle
  change _ ≤ root.toTree.places .all i + _ at hle
  rw [hgiven, ← count_append] at hle
  exact hle.trans (nodup_iff_count_le_one.1 hdisjoint i)

lemma nodup_visit {d : Data} {k : Nat} (hl : Lawful root)
    (hroot : (ofData d k).1 = root.toTree) (hnext : (ofData d k).2 ≤ next)
    (hf : FormedBelow root) {start : State} (he : start.exports = [])
    (hvisit : visit builtinRules root ⟨none, "", none⟩ ⟨next, [], start⟩ = ⟨.ok (), root', q'⟩) :
    root'.toTree.numbers.Nodup :=
  nodup_iff_count_le_one.2 fun i =>
    (count_numbers_le _).trans (places_visit hl hroot hnext hf he hvisit i)

def entangledRoot : Node := (ofData entangled 0).1.node?.getD ⟨0, .null, []⟩

/-- A default export whose name is no text but a node. -/
def oddlyNamed : Data :=
  .object [("type", .str "Program"), ("body", .list [
    .object [("type", .str "ExportDefaultDeclaration"), ("declaration",
      .object [("type", .str "FunctionDeclaration"),
        ("id", .object [("type", .str "Literal"), ("name", .object [("type", .str "Foo")])]),
        ("params", .list []),
        ("body", .object [("type", .str "BlockStatement"), ("body", .list [])])])]])]

end Runs

end Overload.Lowering
