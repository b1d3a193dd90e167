import Overload.Proofs.Tree.Filling
import Overload.Proofs.Tree.Numbering

/-! Trees from data and back. -/

namespace Overload

open List Entries Data

lemma Entries.get?_of_mem {κ α : Type} [DecidableEq κ] {es : List (κ × α)} {e : κ × α}
    (hn : (es.map (·.1)).Nodup) (he : e ∈ es) : get? e.1 es = some e.2 := by
  induction es with
  | nil => cases he
  | cons f es ih =>
    obtain ⟨name, x⟩ := f
    obtain ⟨hnot, hn⟩ := nodup_cons.1 hn
    rcases mem_cons.1 he with rfl | he
    · rw [get?, if_pos rfl]
    · have hne : name ≠ e.1 := fun h => hnot (mem_map.2 ⟨e, he, h.symm⟩)
      rw [get?, if_neg hne, ih hn he]

namespace Data

mutual

/-- The data with the `type` entry at the front of every object that becomes a node. -/
def typeFirst : Data → Data
  | .object es =>
    match get? "type" es with
    | some kind => .object (("type", kind) :: othersTypeFirst es)
    | none => .object es
  | .list xs => .list (itemsTypeFirst xs)
  | d => d
termination_by structural d => d

def itemsTypeFirst : List Data → List Data
  | [] => []
  | x :: xs => x.typeFirst :: itemsTypeFirst xs
termination_by structural xs => xs

def othersTypeFirst : List (String × Data) → List (String × Data)
  | [] => []
  | (name, x) :: rest =>
    if name = "type" then othersTypeFirst rest else (name, x.typeFirst) :: othersTypeFirst rest
termination_by structural es => es

end

lemma itemsTypeFirst_eq (xs : List Data) : itemsTypeFirst xs = xs.map typeFirst := by
  induction xs with
  | nil => rfl
  | cons x xs ih => rw [itemsTypeFirst, ih, map_cons]

lemma othersTypeFirst_eq (es : List (String × Data)) : othersTypeFirst es =
    (es.filter fun e => e.1 ≠ "type").map fun e => (e.1, e.2.typeFirst) := by
  induction es with
  | nil => rfl
  | cons e es ih =>
    obtain ⟨name, x⟩ := e
    by_cases h : name = "type"
    · simp [othersTypeFirst, h, ih]
    · simp [othersTypeFirst, h, ih]

section Equality

variable {es fs : List (String × Data)}

lemma equalItems_iff {xs ys : List Data} :
    equalItems xs ys = true ↔ Forall₂ (fun x y => x.equal y = true) xs ys := by
  induction xs generalizing ys with
  | nil => cases ys <;> simp [equalItems]
  | cons x xs ih => cases ys <;> simp [equalItems, ih]

lemma equalEntries_iff : equalEntries es fs = true ↔
    ∀ e ∈ es, ∃ y, get? e.1 fs = some y ∧ e.2.equal y = true := by
  induction es with
  | nil => simp [equalEntries]
  | cons e es ih =>
    obtain ⟨name, x⟩ := e
    rw [equalEntries, Bool.and_eq_true, ih, forall_mem_cons]
    refine and_congr_left fun _ => ?_
    cases get? name fs <;> simp

lemma equal_self_entries (hn : (es.map (·.1)).Nodup) (h : (object es).equal (.object es) = true) :
    ∀ e ∈ es, e.2.equal e.2 = true := by
  intro e he
  rw [equal, Bool.and_eq_true] at h
  obtain ⟨y, hy, hequal⟩ := equalEntries_iff.1 h.2 e he
  obtain rfl := Option.some.inj ((get?_of_mem hn he).symm.trans hy)
  exact hequal

lemma length_othersTypeFirst (hn : (es.map (·.1)).Nodup) {kind : Data}
    (ht : get? "type" es = some kind) : (othersTypeFirst es).length + 1 = es.length := by
  induction es with
  | nil => cases ht
  | cons e es ih =>
    obtain ⟨name, x⟩ := e
    obtain ⟨hnot, hn⟩ := nodup_cons.1 hn
    by_cases h : name = "type"
    · have hall : es.filter (fun e => e.1 ≠ "type") = es := by
        refine filter_eq_self.2 fun e he => ?_
        simp only [ne_eq, decide_eq_true_eq]
        exact fun heq => hnot (mem_map.2 ⟨e, he, heq.trans h.symm⟩)
      rw [othersTypeFirst, if_pos h, othersTypeFirst_eq, length_map, hall, length_cons]
    · rw [get?, if_neg h] at ht
      rw [othersTypeFirst, if_neg h, length_cons, ih hn ht, length_cons]

mutual

theorem equal_typeFirst : (d : Data) → d.keyed = true → d.equal d = true →
    d.typeFirst.equal d = true
  | .object es, hk, he => by
    rw [keyed, Bool.and_eq_true, decide_eq_true_iff] at hk
    have hself := equal_self_entries hk.1 he
    rw [typeFirst]
    split
    · rename_i kind ht
      rw [equal, Bool.and_eq_true, beq_iff_eq, length_cons, equalEntries_iff]
      refine ⟨length_othersTypeFirst hk.1 ht, forall_mem_cons.2 ⟨⟨kind, ht, ?_⟩, ?_⟩⟩
      · exact hself _ (mem_of_get? ht)
      · rw [othersTypeFirst_eq]
        intro f hf
        obtain ⟨e, hmem, rfl⟩ := mem_map.1 hf
        have hmem := (mem_filter.1 hmem).1
        exact ⟨e.2, get?_of_mem hk.1 hmem, equal_entriesTypeFirst es hk.2 hself e hmem⟩
    · exact he
  | .list xs, hk, he => by
    rw [equal, equalItems_iff] at he
    rw [typeFirst, itemsTypeFirst_eq, equal, equalItems_iff, forall₂_map_left_iff]
    exact forall₂_same.2 (equal_itemsTypeFirst xs hk (forall₂_same.1 he))
  | .null, _, he | .undefined, _, he | .bool _, _, he | .num _, _, he | .str _, _, he => he

theorem equal_itemsTypeFirst : (xs : List Data) → keyedItems xs = true →
    (∀ x ∈ xs, x.equal x = true) → ∀ x ∈ xs, x.typeFirst.equal x = true
  | [], _, _ => by simp
  | x :: xs, hk, he => by
    rw [keyedItems, Bool.and_eq_true] at hk
    obtain ⟨hx, hxs⟩ := forall_mem_cons.1 he
    exact forall_mem_cons.2 ⟨equal_typeFirst x hk.1 hx, equal_itemsTypeFirst xs hk.2 hxs⟩

theorem equal_entriesTypeFirst : (es : List (String × Data)) → keyedEntries es = true →
    (∀ e ∈ es, e.2.equal e.2 = true) → ∀ e ∈ es, e.2.typeFirst.equal e.2 = true
  | [], _, _ => by simp
  | (name, x) :: es, hk, he => by
    rw [keyedEntries, Bool.and_eq_true] at hk
    obtain ⟨hx, hes⟩ := forall_mem_cons.1 he
    exact forall_mem_cons.2 ⟨equal_typeFirst x hk.1 hx, equal_entriesTypeFirst es hk.2 hes⟩

end

end Equality

end Data

namespace Tree

mutual

theorem toData_plain : (d : Data) → (plain d).toData = d
  | .list xs => by rw [plain, toData, itemsToData_plainItems xs]
  | .null | .undefined | .bool _ | .num _ | .str _ | .object _ => rfl

theorem itemsToData_plainItems : (xs : List Data) → itemsToData (plainItems xs) = xs
  | [] => rfl
  | x :: xs => by rw [plainItems, itemsToData, toData_plain x, itemsToData_plainItems xs]

end

mutual

theorem toData_ofData : (d : Data) → (k : Nat) → (ofData d k).1.toData = d.typeFirst
  | .object es, k => by
    rw [ofData, typeFirst]
    cases get? "type" es with
    | some kind =>
      change Data.object (("type", (plain kind).toData) :: fieldsToData (ofEntries es (k + 1)).1) = _
      rw [toData_plain, fieldsToData_ofEntries es (k + 1)]
    | none => rfl
  | .list xs, k => by rw [ofData, toData, itemsToData_ofItems xs k, typeFirst]
  | .null, _ | .undefined, _ | .bool _, _ | .num _, _ | .str _, _ => rfl

theorem itemsToData_ofItems : (xs : List Data) → (k : Nat) →
    itemsToData (ofItems xs k).1 = itemsTypeFirst xs
  | [], _ => rfl
  | x :: xs, k => by
    rw [ofItems, itemsToData, toData_ofData x k, itemsToData_ofItems xs _, itemsTypeFirst]

theorem fieldsToData_ofEntries : (es : List (String × Data)) → (k : Nat) →
    fieldsToData (ofEntries es k).1 = othersTypeFirst es
  | [], _ => rfl
  | (name, x) :: es, k => by
    rw [ofEntries, othersTypeFirst]
    split
    · exact fieldsToData_ofEntries es k
    · rw [fieldsToData, toData_ofData x k, fieldsToData_ofEntries es _]

end

mutual

theorem ofData_typeFirst : (d : Data) → (k : Nat) → ofData d.typeFirst k = ofData d k
  | .object es, k => by
    rw [typeFirst]
    cases ht : get? "type" es with
    | some kind =>
      simp only [ofData, ht, get?, if_true, ofEntries, ofEntries_othersTypeFirst es (k + 1)]
    | none => rfl
  | .list xs, k => by rw [typeFirst, ofData, ofItems_itemsTypeFirst xs k, ofData]
  | .null, _ | .undefined, _ | .bool _, _ | .num _, _ | .str _, _ => rfl

theorem ofItems_itemsTypeFirst : (xs : List Data) → (k : Nat) →
    ofItems (itemsTypeFirst xs) k = ofItems xs k
  | [], _ => rfl
  | x :: xs, k => by
    rw [itemsTypeFirst, ofItems, ofData_typeFirst x k, ofItems_itemsTypeFirst xs _, ofItems]

theorem ofEntries_othersTypeFirst : (es : List (String × Data)) → (k : Nat) →
    ofEntries (othersTypeFirst es) k = ofEntries es k
  | [], _ => rfl
  | (name, x) :: es, k => by
    rw [othersTypeFirst, ofEntries]
    split
    · exact ofEntries_othersTypeFirst es k
    · rename_i h
      simp only [ofEntries, if_neg h, ofData_typeFirst x k, ofEntries_othersTypeFirst es _]

end

mutual

def unnumbered : Tree → Tree
  | .node _ kind fields => .node 0 kind (unnumberedFields fields)
  | .list xs => .list (unnumberedItems xs)
  | t => t
termination_by structural t => t

def unnumberedItems : List Tree → List Tree
  | [] => []
  | x :: xs => x.unnumbered :: unnumberedItems xs
termination_by structural xs => xs

def unnumberedFields : List (String × Tree) → List (String × Tree)
  | [] => []
  | (name, x) :: rest => (name, x.unnumbered) :: unnumberedFields rest
termination_by structural fs => fs

end

mutual

theorem unnumbered_ofData : (d : Data) → (j k : Nat) →
    (ofData d j).1.unnumbered = (ofData d k).1.unnumbered
  | .object es, j, k => by
    rw [ofData, ofData]
    split
    · rw [unnumbered, unnumberedFields_ofEntries es (j + 1) (k + 1), unnumbered]
    · rfl
  | .list xs, j, k => by
    rw [ofData, ofData, unnumbered, unnumberedItems_ofItems xs j k, unnumbered]
  | .null, _, _ | .undefined, _, _ | .bool _, _, _ | .num _, _, _ | .str _, _, _ => rfl

theorem unnumberedItems_ofItems : (xs : List Data) → (j k : Nat) →
    unnumberedItems (ofItems xs j).1 = unnumberedItems (ofItems xs k).1
  | [], _, _ => rfl
  | x :: xs, j, k => by
    rw [ofItems, unnumberedItems, unnumbered_ofData x j k, unnumberedItems_ofItems xs _ (ofData x k).2,
      ofItems, unnumberedItems]

theorem unnumberedFields_ofEntries : (es : List (String × Data)) → (j k : Nat) →
    unnumberedFields (ofEntries es j).1 = unnumberedFields (ofEntries es k).1
  | [], _, _ => rfl
  | (name, x) :: es, j, k => by
    rw [ofEntries, ofEntries]
    split
    · exact unnumberedFields_ofEntries es j k
    · rw [unnumberedFields, unnumbered_ofData x j k,
        unnumberedFields_ofEntries es _ (ofData x k).2, unnumberedFields]

end

section Equality

variable {es : List (String × Data)}

lemma number?_plain (d : Data) : (plain d).number? = d.number? := by cases d <;> rfl

mutual

theorem equal_plain : (d e : Data) → (plain d).equal (plain e) = d.equal e
  | .list xs, .list ys => equalItems_plainItems xs ys
  | .bool b, e => by
    rw [plain, equal, number?_plain, Data.equal]
    rfl
  | .num n, e => by rw [plain, equal, number?_plain, Data.equal]
  | .null, e | .undefined, e | .str _, e | .object _, e => by cases e <;> rfl
  | .list _, .null | .list _, .undefined | .list _, .bool _ | .list _, .num _ | .list _, .str _
  | .list _, .object _ => rfl

theorem equalItems_plainItems : (xs ys : List Data) →
    equalItems (plainItems xs) (plainItems ys) = Data.equalItems xs ys
  | [], [] | [], _ :: _ | _ :: _, [] => rfl
  | x :: xs, y :: ys => by
    rw [plainItems, plainItems, equalItems, Data.equalItems, equal_plain x y,
      equalItems_plainItems xs ys]

end

lemma equalFields_iff {fs gs : List (String × Tree)} : equalFields fs gs = true ↔
    ∀ f ∈ fs, ∃ u, get? f.1 gs = some u ∧ f.2.equal u = true := by
  induction fs with
  | nil => simp [equalFields]
  | cons f fs ih =>
    obtain ⟨name, t⟩ := f
    rw [equalFields, Bool.and_eq_true, ih, forall_mem_cons]
    refine and_congr_left fun _ => ?_
    cases get? name gs <;> simp

lemma length_ofEntries (es : List (String × Data)) (j k : Nat) :
    (ofEntries es j).1.length = (ofEntries es k).1.length := by
  have h := congrArg List.length ((names_ofEntries es j).trans (names_ofEntries es k).symm)
  simpa using h

lemma mem_ofEntries {f : String × Tree} {k : Nat} (hf : f ∈ (ofEntries es k).1) :
    f.1 ≠ "type" ∧ ∃ x i, (f.1, x) ∈ es ∧ f.2 = (ofData x i).1 := by
  induction es generalizing k with
  | nil => cases hf
  | cons e es ih =>
    obtain ⟨name, x⟩ := e
    rw [ofEntries] at hf
    split at hf
    · obtain ⟨hne, y, i, hy, hfy⟩ := ih hf
      exact ⟨hne, y, i, .tail _ hy, hfy⟩
    · rename_i hne
      rcases mem_cons.1 hf with rfl | hf
      · exact ⟨hne, x, k, .head _, rfl⟩
      · obtain ⟨hne, y, i, hy, hfy⟩ := ih hf
        exact ⟨hne, y, i, .tail _ hy, hfy⟩

lemma get?_ofEntries {name : String} (hne : name ≠ "type") (es : List (String × Data)) (k : Nat) :
    ∃ i, get? name (ofEntries es k).1 =
      (get? name es).map fun x => (ofData x i).1 := by
  induction es generalizing k with
  | nil => exact ⟨0, rfl⟩
  | cons e es ih =>
    obtain ⟨other, x⟩ := e
    rw [ofEntries]
    by_cases ho : other = "type"
    · simpa [ho, get?, Ne.symm hne] using ih k
    · by_cases hn : other = name
      · exact ⟨k, by simp [hn, hne, get?]⟩
      · simpa [ho, hn, get?] using ih (ofData x k).2

mutual

theorem equal_ofData : (d : Data) → (j k : Nat) → d.keyed = true → d.equal d = true →
    (ofData d j).1.equal (ofData d k).1 = true
  | .object es, j, k, hk, he => by
    rw [keyed, Bool.and_eq_true, decide_eq_true_iff] at hk
    have hself := equal_self_entries hk.1 he
    rw [ofData, ofData]
    split
    · rename_i kind ht
      have hkind : (plain kind).equal (plain kind) = true :=
        (equal_plain kind kind).trans (hself _ (mem_of_get? ht))
      rw [equal, Bool.or_eq_true, Bool.and_eq_true, Bool.and_eq_true, beq_iff_eq (a := List.length _),
        equalFields_iff]
      refine .inr ⟨⟨hkind, length_ofEntries es _ _⟩, fun f hf => ?_⟩
      obtain ⟨hne, x, i, hx, hfx⟩ := mem_ofEntries hf
      obtain ⟨i', hi'⟩ := get?_ofEntries hne es (k + 1)
      rw [get?_of_mem hk.1 hx] at hi'
      exact ⟨_, hi', hfx ▸ equal_entries es hk.2 hself _ hx i i'⟩
    · exact he
  | .list xs, j, k, hk, he => by
    rw [Data.equal, equalItems_iff] at he
    exact equal_items xs j k hk (forall₂_same.1 he)
  | .null, _, _, _, _ | .undefined, _, _, _, _ => rfl
  | .bool b, _, _, _, he => (equal_plain (.bool b) (.bool b)).trans he
  | .num n, _, _, _, he => (equal_plain (.num n) (.num n)).trans he
  | .str s, _, _, _, he => (equal_plain (.str s) (.str s)).trans he

theorem equal_items : (xs : List Data) → (j k : Nat) → keyedItems xs = true →
    (∀ x ∈ xs, x.equal x = true) → equalItems (ofItems xs j).1 (ofItems xs k).1 = true
  | [], _, _, _, _ => rfl
  | x :: xs, j, k, hk, he => by
    rw [keyedItems, Bool.and_eq_true] at hk
    obtain ⟨hx, hxs⟩ := forall_mem_cons.1 he
    rw [ofItems, ofItems, equalItems, Bool.and_eq_true]
    exact ⟨equal_ofData x j k hk.1 hx, equal_items xs _ _ hk.2 hxs⟩

theorem equal_entries : (es : List (String × Data)) → keyedEntries es = true →
    (∀ e ∈ es, e.2.equal e.2 = true) → ∀ e ∈ es, ∀ j k,
      (ofData e.2 j).1.equal (ofData e.2 k).1 = true
  | [], _, _ => by simp
  | (name, x) :: es, hk, he => by
    rw [keyedEntries, Bool.and_eq_true] at hk
    obtain ⟨hx, hes⟩ := forall_mem_cons.1 he
    exact forall_mem_cons.2 ⟨fun j k => equal_ofData x j k hk.1 hx, equal_entries es hk.2 hes⟩

end

end Equality

/-! ### Conversion from a stack -/

section Filling

lemma cellOf_typed {kind : Data} (ht : get? "type" es = some kind) :
    cellOf (.object es) = .part ⟨es, kind, ht⟩ := by
  rw [cellOf]
  split
  · rename_i h
    obtain rfl := Option.some.inj (ht.symm.trans h)
    rfl
  · simp_all

lemma cellOf_untyped (ht : get? "type" es = none) : cellOf (.object es) = .value (.object es) := by
  rw [cellOf]
  split
  · simp_all
  · rfl

def unnumberedOf (s : TypedObject) : Tree := (ofData (.object s.entries) 0).1.unnumbered

mutual

theorem close_cellOf : (d : Data) → (k : Nat) →
    (cellOf d).close .list unnumberedOf = (ofData d k).1.unnumbered
  | .object es, k => by
    rw [unnumbered_ofData (.object es) k 0]
    cases h : get? "type" es with
    | some kind =>
      rw [cellOf_typed h]
      rfl
    | none =>
      rw [cellOf_untyped h, ofData, h]
      rfl
  | .list xs, k => by rw [cellOf, Cell.close, closeItems_cellsOf xs k, ofData, unnumbered]
  | .null, _ | .undefined, _ | .bool _, _ | .num _, _ | .str _, _ => rfl

theorem closeItems_cellsOf : (xs : List Data) → (k : Nat) →
    Cell.closeItems .list unnumberedOf (cellsOf xs) = unnumberedItems (ofItems xs k).1
  | [], _ => rfl
  | x :: xs, k => by
    rw [cellsOf, Cell.closeItems, close_cellOf x k, closeItems_cellsOf xs _, ofItems,
      unnumberedItems]

end

lemma fieldCells_cons {name : String} {x : Data} {fs : Cells TypedObject Tree}
    (hne : name ≠ "type") :
    fieldCells ((name, x) :: es) = .ok fs ↔ refusal? name x = none ∧
      ∃ gs, fieldCells es = .ok gs ∧ (name, cellOf x) :: gs = fs := by
  rw [fieldCells, if_neg hne]
  cases refusal? name x with
  | some fault => simp
  | none => cases fieldCells es <;> simp [Except.map]

lemma close_fieldCells {fs : Cells TypedObject Tree} (h : fieldCells es = .ok fs) (k : Nat) :
    fs.close .list unnumberedOf = unnumberedFields (ofEntries es k).1 := by
  induction es generalizing fs k with
  | nil =>
    obtain rfl := Except.ok.inj h
    rfl
  | cons e es ih =>
    obtain ⟨name, x⟩ := e
    by_cases hne : name = "type"
    · rw [fieldCells, if_pos hne] at h
      rw [ofEntries, if_pos hne, ih h k]
    · obtain ⟨-, gs, hgs, rfl⟩ := (fieldCells_cons hne).1 h
      rw [ofEntries, if_neg hne, unnumberedFields, ← close_cellOf x k, ← ih hgs]
      rfl

mutual

theorem number_unnumbered : (d : Data) → (j k : Nat) →
    number (ofData d j).1.unnumbered k = ofData d k
  | .object es, j, k => by
    rw [ofData, ofData]
    split
    · rw [unnumbered, number, numberFields_unnumbered es (j + 1) (k + 1)]
    · rfl
  | .list xs, j, k => by rw [ofData, unnumbered, number, numberItems_unnumbered xs j k, ofData]
  | .null, _, _ | .undefined, _, _ | .bool _, _, _ | .num _, _, _ | .str _, _, _ => rfl

theorem numberItems_unnumbered : (xs : List Data) → (j k : Nat) →
    numberItems (unnumberedItems (ofItems xs j).1) k = ofItems xs k
  | [], _, _ => rfl
  | x :: xs, j, k => by
    rw [ofItems, unnumberedItems, numberItems, number_unnumbered x j k,
      numberItems_unnumbered xs _ _, ofItems]

theorem numberFields_unnumbered : (es : List (String × Data)) → (j k : Nat) →
    numberFields (unnumberedFields (ofEntries es j).1) k = ofEntries es k
  | [], _, _ => rfl
  | (name, x) :: es, j, k => by
    rw [ofEntries, ofEntries]
    split
    · exact numberFields_unnumbered es j k
    · rw [unnumberedFields, numberFields, number_unnumbered x j k, numberFields_unnumbered es _ _]

end

/-- No field has one of the names. -/
def Lacks (names : List String) (n : Node) : Prop := ∀ f ∈ n.fields, f.1 ∉ names

instance (names : List String) : DecidablePred (Lacks names) :=
  fun n => inferInstanceAs (Decidable (∀ f ∈ n.fields, f.1 ∉ names))

lemma has_eq_false_iff {name : String} {n : Node} :
    Entries.has name n.fields = false ↔ Lacks [name] n := by
  rw [Entries.has, Option.isSome_eq_false_iff, Option.isNone_iff_eq_none, get?_eq_none_iff]
  constructor
  · intro h f hf heq
    exact h (mem_map.2 ⟨f, hf, mem_singleton.1 heq⟩)
  · intro h hmem
    obtain ⟨f, hf, hname⟩ := mem_map.1 hmem
    exact h f hf (mem_singleton.2 hname)

def refusedNames : List String := ["__class__", "__weakref__", "__dict__"]

lemma refusal?_eq_none {name : String} {x : Data} :
    refusal? name x = none ↔ name ∉ refusedNames := by
  rw [refusal?]
  split_ifs <;> simp_all [refusedNames]
  split <;> simp

lemma sound_reading {s : TypedObject} : reading.Sound s ↔
    ∃ fs, fieldCells s.entries = .ok fs ∧ ∀ p ∈ fs.parts, reading.Sound p :=
  ⟨fun ⟨hfs, hparts⟩ => ⟨_, hfs, hparts⟩, fun ⟨_, hfs, hparts⟩ => .intro hfs hparts⟩

mutual

theorem sound_cellOf : (d : Data) → (k : Nat) →
    ((∀ p ∈ (cellOf d).parts, reading.Sound p) ↔ Every (Lacks refusedNames) (ofData d k).1)
  | .object es, k => by
    cases h : get? "type" es with
    | some kind =>
      rw [cellOf_typed h, Cell.parts, forall_mem_singleton, sound_reading,
        sound_fieldCells es (k + 1), ofData, h]
      rfl
    | none =>
      rw [cellOf_untyped h, ofData, h]
      simp [Cell.parts, Every]
  | .list xs, k => by
    rw [cellOf, ofData]
    exact sound_cellsOf xs k
  | .null, _ | .undefined, _ | .bool _, _ | .num _, _ | .str _, _ => by
    simp [cellOf, Cell.parts, ofData, plain, Every]

theorem sound_cellsOf : (xs : List Data) → (k : Nat) →
    ((∀ p ∈ Cell.itemParts (cellsOf xs), reading.Sound p) ↔
      EveryItem (Lacks refusedNames) (ofItems xs k).1)
  | [], _ => by simp [cellsOf, Cell.itemParts, ofItems, EveryItem]
  | x :: xs, k => by
    rw [cellsOf, Cell.itemParts, forall_mem_append, sound_cellOf x k, sound_cellsOf xs (ofData x k).2,
      ofItems, EveryItem]

theorem sound_fieldCells : (es : List (String × Data)) → (k : Nat) →
    ((∃ fs, fieldCells es = .ok fs ∧ ∀ p ∈ fs.parts, reading.Sound p) ↔
      (∀ f ∈ (ofEntries es k).1, f.1 ∉ refusedNames) ∧
        EveryField (Lacks refusedNames) (ofEntries es k).1)
  | [], _ => by simp [fieldCells, Cells.parts, ofEntries, EveryField]
  | (name, x) :: es, k => by
    by_cases hne : name = "type"
    · rw [fieldCells, ofEntries, if_pos hne, if_pos hne]
      exact sound_fieldCells es k
    · have hes := sound_fieldCells es (ofData x k).2
      have hx := sound_cellOf x k
      rw [ofEntries, if_neg hne, forall_mem_cons, EveryField]
      simp only [fieldCells_cons hne, refusal?_eq_none]
      constructor
      · rintro ⟨_, ⟨hname, gs, hgs, rfl⟩, hparts⟩
        rw [Cells.parts_cons, forall_mem_append] at hparts
        obtain ⟨hnames, hrest⟩ := hes.1 ⟨gs, hgs, hparts.2⟩
        exact ⟨⟨hname, hnames⟩, hx.1 hparts.1, hrest⟩
      · rintro ⟨⟨hname, hnames⟩, hfirst, hrest⟩
        obtain ⟨gs, hgs, hparts⟩ := hes.2 ⟨hnames, hrest⟩
        refine ⟨_, ⟨hname, gs, hgs, rfl⟩, ?_⟩
        rw [Cells.parts_cons, forall_mem_append]
        exact ⟨hx.2 hfirst, hparts⟩

end

/-- Nodes filled from a stack are the nodes of the recursion. -/
theorem load_eq_ok_iff {kind : Data} (ht : get? "type" es = some kind) {k : Nat} {r : Tree × Nat} :
    load (.object es) k = .ok r ↔
      Every (Lacks refusedNames) (ofData (.object es) k).1 ∧ ofData (.object es) k = r := by
  have hcell := cellOf_typed ht
  have hsound : reading.Sound ⟨es, kind, ht⟩ ↔
      Every (Lacks refusedNames) (ofData (.object es) k).1 := by
    rw [← sound_cellOf, hcell, Cell.parts, forall_mem_singleton]
  have hmake : ∀ s fs, reading.fields s = .ok fs →
      reading.make (reading.kind s) (fs.close reading.ofList unnumberedOf) = unnumberedOf s := by
    intro s fs hfs
    rw [unnumberedOf, ofData, s.typed]
    exact congrArg _ (close_fieldCells hfs _)
  rw [load, hcell, except_bind_eq_ok, ← hsound]
  simp only [reading.run_eq_ok_iff hmake, pure_ok, Except.ok.injEq]
  constructor
  · rintro ⟨_, ⟨hs, rfl⟩, h⟩
    exact ⟨hs, (number_unnumbered (.object es) 0 k).symm.trans h⟩
  · rintro ⟨hs, h⟩
    exact ⟨_, ⟨hs, rfl⟩, (number_unnumbered (.object es) 0 k).trans h⟩

mutual

theorem close_cellOfTree : (t : Tree) →
    (cellOfTree t).close .list (fun n => n.toTree.toData) = t.toData
  | .node _ _ _ => rfl
  | .list xs => by rw [cellOfTree, Cell.close, closeItems_cellsOfTrees xs, toData]
  | .null | .undefined | .bool _ | .num _ | .str _ | .object _ => rfl

theorem closeItems_cellsOfTrees : (xs : List Tree) →
    Cell.closeItems .list (fun n => n.toTree.toData) (cellsOfTrees xs) = itemsToData xs
  | [] => rfl
  | x :: xs => by
    rw [cellsOfTrees, Cell.closeItems, close_cellOfTree x, closeItems_cellsOfTrees xs, itemsToData]

end

lemma close_cellsOfFields (fs : List (String × Tree)) :
    Cells.close .list (fun n : Node => n.toTree.toData) (fs.map fun f => (f.1, cellOfTree f.2)) =
      fieldsToData fs := by
  induction fs with
  | nil => rfl
  | cons f fs ih =>
    rw [map_cons, Cells.close, map_cons, fieldsToData, close_cellOfTree]
    exact congrArg _ ih

lemma writing_fields_eq_ok {n : Node} {fs : Cells Node Data} : writing.fields n = .ok fs ↔
    Lacks ["fields"] n ∧ (n.fields.map fun f => (f.1, cellOfTree f.2)) = fs := by
  rw [← has_eq_false_iff]
  cases h : Entries.has "fields" n.fields <;> simp [writing, h]

lemma sound_writing {n : Node} : writing.Sound n ↔ Lacks ["fields"] n ∧
    ∀ p ∈ Cells.parts (n.fields.map fun f => (f.1, cellOfTree f.2)), writing.Sound p := by
  constructor
  · rintro ⟨hfs, hparts⟩
    obtain ⟨hno, rfl⟩ := writing_fields_eq_ok.1 hfs
    exact ⟨hno, hparts⟩
  · rintro ⟨hno, hparts⟩
    exact .intro (writing_fields_eq_ok.2 ⟨hno, rfl⟩) hparts

mutual

theorem sound_cellOfTree : (t : Tree) →
    ((∀ p ∈ (cellOfTree t).parts, writing.Sound p) ↔ Every (Lacks ["fields"]) t)
  | .node id kind fields => by
    rw [cellOfTree, Cell.parts, forall_mem_singleton, sound_writing, sound_cellsOfFields fields]
    rfl
  | .list xs => sound_cellsOfTrees xs
  | .null | .undefined | .bool _ | .num _ | .str _ | .object _ => by
    simp [cellOfTree, Cell.parts, Every]

theorem sound_cellsOfTrees : (xs : List Tree) →
    ((∀ p ∈ Cell.itemParts (cellsOfTrees xs), writing.Sound p) ↔ EveryItem (Lacks ["fields"]) xs)
  | [] => by simp [cellsOfTrees, Cell.itemParts, EveryItem]
  | x :: xs => by
    rw [cellsOfTrees, Cell.itemParts, forall_mem_append, sound_cellOfTree x, sound_cellsOfTrees xs,
      EveryItem]

theorem sound_cellsOfFields : (fs : List (String × Tree)) →
    ((∀ p ∈ Cells.parts (fs.map fun f => (f.1, cellOfTree f.2)), writing.Sound p) ↔
      EveryField (Lacks ["fields"]) fs)
  | [] => by simp [Cells.parts, EveryField]
  | (name, x) :: fs => by
    rw [map_cons, Cells.parts_cons, forall_mem_append, sound_cellOfTree x, sound_cellsOfFields fs,
      EveryField]

end

theorem dump_eq_ok_iff {n : Node} {d : Data} : n.dump = .ok d ↔
    Lacks ["to_dict"] n ∧ Every (Lacks ["fields"]) n.toTree ∧ n.toTree.toData = d := by
  have hmake : ∀ n fs, writing.fields n = .ok fs →
      writing.make (writing.kind n) (fs.close writing.ofList fun n => n.toTree.toData) =
        n.toTree.toData := by
    intro n fs hfs
    obtain ⟨-, rfl⟩ := writing_fields_eq_ok.1 hfs
    exact congrArg (fun fs => Data.object (("type", n.kind.toData) :: fs))
      (close_cellsOfFields n.fields)
  have hsound : writing.Sound n ↔ Every (Lacks ["fields"]) n.toTree := by
    rw [← sound_cellOfTree, Node.toTree, cellOfTree, Cell.parts, forall_mem_singleton]
  rw [Node.dump, ← has_eq_false_iff, ← hsound, ← writing.run_eq_ok_iff hmake]
  cases Entries.has "to_dict" n.fields <;> simp

end Filling

def jumbled : List (String × Data) :=
  [("rows", .list [.list [.object [("b", .num (.int 1)), ("type", .str "B"), ("a", .null)]], .null]),
    ("type", .str "A"),
    ("raw", .object [("held", .object [("c", .bool true), ("type", .str "C")])]),
    ("next", .object [("d", .str "d"), ("type", .str "D")])]

end Tree

end Overload
