import Overload.Proofs.Failing
import Overload.Proofs.Visit.Recursion
import Overload.Tree.Search

/-! Folds see the children that visits see, so searches find what can be reached. -/

namespace Overload

open List Entries

variable {rs : List (Unit → Except Fault Bool)}

variable {n root : Node} {ts : List Tree} {s : String}

namespace Tree

variable {α : Type} (alg : Node → (String → Option (Folded α)) → α) (leaf : Tree → α)

def folded : Tree → Folded α
  | .list xs => .items (xs.map fun x => (x, fun _ => x.fold alg leaf))
  | t => .single t fun _ => t.fold alg leaf

lemma foldItems_eq (xs : List Tree) :
    foldItems alg leaf xs = xs.map fun x => (x, fun _ => x.fold alg leaf) := by
  induction xs with
  | nil => rfl
  | cons x xs ih => rw [foldItems, ih, map_cons]

lemma get?_foldFields (name : String) (fields : List (String × Tree)) :
    get? name (foldFields alg leaf fields) =
      (get? name fields).map (folded alg leaf) := by
  induction fields with
  | nil => simp [foldFields]
  | cons f fields ih =>
    obtain ⟨key, t⟩ := f
    cases t with
    | list xs =>
      simp only [foldFields, get?, foldItems_eq]
      split
      · rfl
      · exact ih
    | _ =>
      simp only [foldFields, get?]
      split
      · rfl
      · exact ih

def fieldResults (n : Node) (name : String) : Option (Folded α) :=
  get? name (foldFields alg leaf n.fields)

lemma fold_toTree (n : Node) : n.toTree.fold alg leaf = alg n (fieldResults alg leaf n) := rfl

lemma fieldResults_of_ne (n : Node) {name : String} (h : name ≠ "type") :
    fieldResults alg leaf n name = (n.get? name).map (folded alg leaf) := by
  rw [fieldResults, get?_foldFields, Node.get?, if_neg h]

open Visit

lemma nodes_items (key : String) (i : Nat) (xs : List Tree) :
    (Folded.items (xs.map fun x => (x, fun _ => x.fold alg leaf))).nodes =
      (itemSlots key i xs).map fun s _ => s.child.toTree.fold alg leaf := by
  induction xs generalizing i with
  | nil => rfl
  | cons x xs ih =>
    have ih := ih (i + 1)
    rw [Folded.nodes] at ih ⊢
    rw [itemSlots, map_append, ← ih, map_cons, filter_cons]
    cases hx : x.node? with
    | none => simp [isNode, hx]
    | some n =>
      obtain rfl := toTree_of_node? hx
      simp [isNode, hx]

lemma nodes_folded (key : String) (t : Tree) :
    (folded alg leaf t).nodes =
      (fieldSlots key t).map fun s _ => s.child.toTree.fold alg leaf := by
  cases t with
  | list xs => exact nodes_items alg leaf key 0 xs
  | node id kind fields => rfl
  | _ => rfl

lemma childResults_eq {keys : List String} (hk : n.childKeys = .ok keys) (ht : "type" ∉ keys) :
    n.childResults (fieldResults alg leaf n) =
      .ok ((slots n).map fun s _ => s.child.toTree.fold alg leaf).reverse := by
  have hfields : keys.flatMap (fun key =>
      ((fieldResults alg leaf n key).map Folded.nodes).getD []) =
        (slotsOf n keys).map fun s _ => s.child.toTree.fold alg leaf := by
    rw [slotsOf, map_flatMap]
    refine flatMap_congr fun key hkey => ?_
    rw [fieldResults_of_ne alg leaf n fun h => ht (h ▸ hkey), Node.get]
    cases n.get? key with
    | none => rfl
    | some t => exact nodes_folded alg leaf key t
  rw [slots_of_childKeys hk, ← hfields, Node.childResults, hk]
  rfl

lemma key_ne_type {s : Visit.Slot} (hs : s ∈ slots n) : s.key ≠ "type" := by
  unfold slots at hs
  split at hs
  · rename_i keys hk
    intro h
    have hkind : ∃ k, n.kind.key = .ok k := by
      cases hkey : n.kind.key with
      | ok k => exact ⟨k, rfl⟩
      | error e => simp [Node.childKeys, hkey] at hk
    obtain ⟨k, hkey⟩ := hkind
    have hget : n.get s.key = n.kind := by rw [h]; rfl
    obtain ⟨-, ⟨ht, -⟩ | ⟨xs, i, ht, -⟩⟩ := mem_fieldSlots.1 (mem_slotsOf.1 hs).2 <;>
      rw [← hget, ht] at hkey <;> simp [key, isKey, Node.toTree] at hkey
  · simp at hs

lemma mem_childResults {rs : List (Unit → α)}
    (h : n.childResults (fieldResults alg leaf n) = .ok rs) {s : Visit.Slot} (hs : s ∈ slots n) :
    (fun _ => s.child.toTree.fold alg leaf) ∈ rs := by
  have hne := key_ne_type hs
  cases hk : n.childKeys with
  | error e => simp [slots, hk] at hs
  | ok keys =>
    rw [slots_of_childKeys hk] at hs
    obtain ⟨hkey, hfield⟩ := mem_slotsOf.1 hs
    simp only [Node.childResults, hk, ok_bind, pure_ok, Except.ok.injEq] at h
    rw [← h, mem_reverse, mem_flatMap]
    refine ⟨s.key, hkey, ?_⟩
    rw [fieldResults_of_ne alg leaf n hne]
    rw [Node.get] at hfield
    cases hget : n.get? s.key with
    | none => simp [hget, fieldSlots, node?] at hfield
    | some t =>
      rw [hget] at hfield
      simp only [Option.map_some, Option.getD_some, nodes_folded alg leaf s.key]
      exact mem_map.2 ⟨s, hfield, rfl⟩

end Tree

namespace Visit

def Names (n : Node) (name : String) : Prop :=
  n.is "Identifier" = true ∧ n.get? "name" = some (.str name)

end Visit

namespace Tree

open Visit

lemma mem_runAll {rs : List (Unit → Except Fault (List Tree))} (h : runAll rs = .ok ts)
    {r : Unit → Except Fault (List Tree)} (hr : r ∈ rs) : ∃ us, r () = .ok us ∧ us ⊆ ts := by
  induction rs generalizing ts with
  | nil => simp at hr
  | cons q rs ih =>
    obtain ⟨us, hus, h⟩ := except_bind_eq_ok.1 h
    obtain ⟨vs, hvs, h⟩ := except_bind_eq_ok.1 h
    obtain rfl := Except.ok.inj h
    rcases mem_cons.1 hr with rfl | hr
    · exact ⟨us, hus, subset_append_left ..⟩
    · obtain ⟨ws, hws, hsub⟩ := ih hvs hr
      exact ⟨ws, hws, Subset.trans hsub (subset_append_right ..)⟩

lemma nodeNames_eq_ok {child : String → Option (Folded (Except Fault (List Tree)))}
    (h : nodeNames n child = .ok ts) : ∃ own rs us, ownName n = .ok own ∧
      n.childResults child = .ok rs ∧ runAll rs = .ok us ∧ ts = own ++ us := by
  obtain ⟨own, hown, h⟩ := except_bind_eq_ok.1 h
  obtain ⟨rs, hrs, h⟩ := except_bind_eq_ok.1 h
  obtain ⟨us, hus, h⟩ := except_bind_eq_ok.1 h
  exact ⟨own, rs, us, hown, hrs, hus, (Except.ok.inj h).symm⟩

lemma names_subset {leaf : Tree → Except Fault (List Tree)}
    (h : root.toTree.fold nodeNames leaf = .ok ts) (hb : Below root n) :
    ∃ us, n.toTree.fold nodeNames leaf = .ok us ∧ us ⊆ ts := by
  induction hb with
  | refl => exact ⟨ts, h, Subset.refl ts⟩
  | child _ hs ih =>
    obtain ⟨us, hus, hsub⟩ := ih
    rw [fold_toTree] at hus
    obtain ⟨own, rs, vs, -, hrs, hvs, rfl⟩ := nodeNames_eq_ok hus
    obtain ⟨ws, hws, hsub'⟩ := mem_runAll hvs (mem_childResults nodeNames leaf hrs hs)
    exact ⟨ws, hws, fun t ht => hsub (mem_append_right own (hsub' ht))⟩

lemma equal_str_iff {t : Tree} : t.equal (.str s) = true ↔ t = .str s := by
  cases t <;> simp [equal, number?]

lemma mem_insertKey {keys : List Tree} {key : Tree} :
    .str s ∈ insertKey keys key ↔ .str s ∈ keys ∨ key = .str s := by
  unfold insertKey
  split
  · rename_i h
    refine ⟨.inl, fun h' => h'.elim id fun hk => ?_⟩
    obtain ⟨k, hk', he⟩ := any_eq_true.1 h
    rw [hk, equal_str_iff] at he
    rwa [← he]
  · rw [mem_append, mem_singleton, eq_comm (a := key)]

lemma mem_foldl_insertKey {keys : List Tree} :
    .str s ∈ ts.foldl insertKey keys ↔ .str s ∈ keys ∨ .str s ∈ ts := by
  induction ts generalizing keys with
  | nil => simp
  | cons t ts ih => rw [foldl_cons, ih, mem_insertKey, mem_cons, or_assoc, eq_comm]

lemma mem_names (h : root.toTree.names = .ok ts) (hb : Below root n) (hn : Names n s) :
    .str s ∈ ts := by
  obtain ⟨us, hus, h⟩ := except_bind_eq_ok.1 h
  obtain rfl := Except.ok.inj h
  obtain ⟨vs, hvs, hsub⟩ := names_subset hus hb
  rw [fold_toTree] at hvs
  obtain ⟨own, -, ws, hown, -, -, rfl⟩ := nodeNames_eq_ok hvs
  have hown' : ownName n = .ok [.str s] := by
    simp [ownName, hn.1, Node.attr, hn.2, key, isKey]
  obtain rfl := Except.ok.inj (hown'.symm.trans hown)
  exact mem_foldl_insertKey.2 (.inr (hsub (by simp)))

lemma runAll_eq_ok {rs : List (Unit → Except Fault (List Tree))}
    (h : ∀ r ∈ rs, ∃ ts, r () = .ok ts) : ∃ ts, runAll rs = .ok ts := by
  induction rs with
  | nil => exact ⟨[], rfl⟩
  | cons r rs ih =>
    obtain ⟨ts, hts⟩ := h r (by simp)
    obtain ⟨us, hus⟩ := ih fun q hq => h q (by simp [hq])
    exact ⟨ts ++ us, by simp [runAll, hts, hus]⟩

lemma names_eq_ok {root : Node} (h : ∀ n, Below root n →
    (∃ keys, n.childKeys = .ok keys ∧ "type" ∉ keys) ∧ ∃ own, ownName n = .ok own) :
    ∃ ts, root.toTree.names = .ok ts := by
  suffices hfold : ∀ n, Below root n →
      ∃ ts, n.toTree.fold nodeNames (fun _ => .error .noAttribute) = .ok ts by
    obtain ⟨ts, hts⟩ := hfold root .refl
    exact ⟨ts.foldl insertKey [], by simp [names, hts]⟩
  intro n hb
  induction hs : n.toTree.size using Nat.strongRecOn generalizing n with
  | ind size ih =>
    obtain ⟨⟨keys, hk, ht⟩, own, hown⟩ := h n hb
    obtain ⟨us, hus⟩ : ∃ us, runAll ((slots n).map fun s _ =>
        s.child.toTree.fold nodeNames fun _ => .error .noAttribute).reverse = .ok us := by
      refine runAll_eq_ok fun r hr => ?_
      obtain ⟨s, hmem, rfl⟩ := mem_map.1 (mem_reverse.1 hr)
      refine ih _ ?_ _ (hb.child hmem) rfl
      rw [slots_of_childKeys hk] at hmem
      exact hs ▸ size_child_lt hmem
    refine ⟨own ++ us, ?_⟩
    rw [fold_toTree, nodeNames, hown, childResults_eq _ _ hk ht]
    simp only [ok_bind, hus, pure_ok]

lemma runAny_false : runAny rs = .ok false ↔ ∀ r ∈ rs, r () = .ok false := by
  induction rs with
  | nil => simp [runAny]
  | cons r rs ih =>
    simp only [runAny, mem_cons, forall_eq_or_imp]
    cases r () with
    | error e => simp
    | ok b =>
      cases b
      · simpa using ih
      · simp

lemma contains_of_children {keys : List String} {kind : String} (hk : n.childKeys = .ok keys)
    (ht : "type" ∉ keys) (hkind : n.is kind = false) (hf : n.kind.among functionKinds = .ok false)
    (hc : ∀ s ∈ slots n, s.child.toTree.contains kind = .ok false) :
    n.toTree.contains kind = .ok false := by
  rw [contains, fold_toTree, nodeContains, hkind, hf, childResults_eq _ _ hk ht]
  refine runAny_false.2 fun r hr => ?_
  obtain ⟨s, hs, rfl⟩ := mem_map.1 (mem_reverse.1 hr)
  exact hc s hs

lemma exists_of_runAny (h : runAny rs = .ok true) : ∃ r ∈ rs, r () = .ok true := by
  induction rs with
  | nil => simp [runAny] at h
  | cons r rs ih =>
    cases hr : r () with
    | error e => simp [runAny, hr] at h
    | ok b =>
      cases b with
      | true => exact ⟨r, by simp, hr⟩
      | false =>
        obtain ⟨r', hmem, hr'⟩ := ih (by simpa [runAny, hr] using h)
        exact ⟨r', by simp [hmem], hr'⟩

lemma exists_of_contains {kind : String} (hl : Lawful n) (h : n.toTree.contains kind = .ok true) :
    ∃ y, Below n y ∧ y.is kind = true := by
  induction hsize : n.toTree.size using Nat.strongRecOn generalizing n with
  | ind size ih =>
    rw [contains, fold_toTree, nodeContains] at h
    cases his : n.is kind with
    | true => exact ⟨n, .refl, his⟩
    | false =>
      obtain ⟨isFunction, -, h⟩ := except_bind_eq_ok.1 (by simpa [his] using h)
      split at h
      · cases h
      · obtain ⟨rs, hrs, h⟩ := except_bind_eq_ok.1 h
        cases hk : n.childKeys with
        | error e => simp [Node.childResults, hk] at hrs
        | ok keys =>
          rw [childResults_eq _ _ hk (hl n .refl keys hk).2] at hrs
          obtain rfl := Except.ok.inj hrs
          obtain ⟨r, hr, htrue⟩ := exists_of_runAny h
          obtain ⟨s, hs, rfl⟩ := mem_map.1 (mem_reverse.1 hr)
          have hlt : s.child.toTree.size < size :=
            hsize ▸ size_child_lt (slots_of_childKeys hk ▸ hs)
          obtain ⟨y, hy, hyk⟩ := ih _ hlt (hl.child hs) htrue rfl
          exact ⟨y, .head hs hy, hyk⟩

lemma runAny_eq_ok (h : ∀ r ∈ rs, ∃ b, r () = .ok b) : ∃ b, runAny rs = .ok b := by
  induction rs with
  | nil => exact ⟨false, rfl⟩
  | cons r rs ih =>
    obtain ⟨b, hb⟩ := h r (by simp)
    cases b with
    | true => exact ⟨true, by simp [runAny, hb]⟩
    | false =>
      obtain ⟨b, hrs⟩ := ih fun q hq => h q (by simp [hq])
      exact ⟨b, by simp [runAny, hb, hrs]⟩

lemma contains_eq_ok (h : ∀ n, Below root n → ∃ keys, n.childKeys = .ok keys ∧ "type" ∉ keys)
    (kind : String) : ∃ b, root.toTree.contains kind = .ok b := by
  induction hsize : root.toTree.size using Nat.strongRecOn generalizing root with
  | ind size ih =>
    obtain ⟨keys, hk, ht⟩ := h root .refl
    obtain ⟨isFunction, hf⟩ : ∃ b, root.kind.among functionKinds = .ok b := by
      obtain ⟨key, hkey, -⟩ := except_bind_eq_ok.1 hk
      unfold among
      rw [hkey]
      cases key <;> exact ⟨_, rfl⟩
    rw [contains, fold_toTree, nodeContains, hf, childResults_eq _ _ hk ht]
    cases root.is kind with
    | true => exact ⟨true, rfl⟩
    | false =>
      cases isFunction with
      | true => exact ⟨false, rfl⟩
      | false =>
        refine runAny_eq_ok fun r hr => ?_
        obtain ⟨s, hs, rfl⟩ := mem_map.1 (mem_reverse.1 hr)
        have hlt : s.child.toTree.size < size := hsize ▸ size_child_lt (slots_of_childKeys hk ▸ hs)
        exact ih _ hlt (fun n hn => h n (.head hs hn)) rfl

lemma contains_of_function {kind : String} (hkind : n.is kind = false)
    (hf : n.kind.among functionKinds = .ok true) : n.toTree.contains kind = .ok false := by
  rw [contains, fold_toTree, nodeContains, hkind, hf]
  rfl

end Tree

namespace Visit

lemma childKeys_of_kind (k : Kind) (h : n.kind = .str k.name) : n.childKeys = .ok k.children := by
  simp [Node.childKeys, Node.kind?, h, Tree.key, Tree.isKey, Kind.ofName?_name]

lemma child_in_fields {s : Slot} (hs : s ∈ slots n) :
    ∃ f ∈ n.fields, f.2 = s.child.toTree ∨ ∃ xs, f.2 = .list xs ∧ s.child.toTree ∈ xs := by
  have hne := Tree.key_ne_type hs
  have hmem {t : Tree} (ht : n.get s.key = t) (hn : t ≠ .null) : (s.key, t) ∈ n.fields := by
    have := Node.get?_of_get ht hn
    rw [Node.get?, if_neg hne] at this
    exact mem_of_get? this
  unfold slots at hs
  split at hs
  · rcases (mem_fieldSlots.1 (mem_slotsOf.1 hs).2).2 with ⟨ht, -⟩ | ⟨xs, i, ht, hx, -⟩
    · exact ⟨_, hmem ht (by simp [Node.toTree]), .inl rfl⟩
    · exact ⟨_, hmem ht (by simp), .inr ⟨xs, rfl, mem_of_getElem? hx⟩⟩
  · simp at hs

end Visit

end Overload
