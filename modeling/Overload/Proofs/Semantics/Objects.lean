import Mathlib.Data.Option.Basic
import Overload.Proofs.Lowering.Rejection

/-!
The object that a program returns, evaluated: properties from left to right, a later key overwrites
an earlier one, and a spread copies all own keys.
-/

namespace Overload

open List Build

variable {name : String}

section Keys

variable {κ α : Type} [DecidableEq κ]

lemma Entries.map_fst_set_of_not_has {name : κ} {value : α} {es : List (κ × α)}
    (h : get? name es = none) : (set name value es).map (·.1) = es.map (·.1) ++ [name] := by
  induction es with
  | nil => rfl
  | cons e rest ih =>
    by_cases hn : e.1 = name
    · simp [get?, hn] at h
    · simp only [get?, hn, if_false] at h
      simp [set, hn, ih h]

lemma Entries.nodup_set {es : List (κ × α)} (h : (es.map (·.1)).Nodup) (name : κ) (value : α) :
    ((set name value es).map (·.1)).Nodup := by
  cases hn : get? name es with
  | some v => rwa [map_fst_set_of_has (by simp [hn])]
  | none =>
    rw [map_fst_set_of_not_has hn]
    exact h.append (nodup_singleton name) (by simpa using get?_eq_none_iff.1 hn)

end Keys

structure Obj (V : Type) where
  entries : List (String × V)
  nodup : (entries.map (·.1)).Nodup

namespace Obj

variable {V : Type}

def empty : Obj V := ⟨[], nodup_nil⟩

def get? (o : Obj V) (name : String) : Option V := Entries.get? name o.entries

def put (o : Obj V) (name : String) (v : V) : Obj V :=
  ⟨Entries.set name v o.entries, Entries.nodup_set o.nodup name v⟩

def copy (o source : Obj V) : Obj V := source.entries.foldl (fun o e => o.put e.1 e.2) o

lemma get?_empty (name : String) : (empty : Obj V).get? name = none := rfl

lemma get?_put_self (o : Obj V) (name : String) (v : V) : (o.put name v).get? name = some v :=
  Entries.get?_set_self name v o.entries

lemma get?_put_of_ne {other : String} (h : other ≠ name) (o : Obj V) (v : V) :
    (o.put name v).get? other = o.get? other :=
  Entries.get?_set_of_ne h v o.entries

lemma get?_copy (o source : Obj V) (name : String) :
    (o.copy source).get? name = (source.get? name).or (o.get? name) := by
  obtain ⟨es, hes⟩ := source
  unfold copy
  -- only the objects change along the fold, and the keys still to come are distinct
  induction es generalizing o with
  | nil => rfl
  | cons e es ih =>
    obtain ⟨hnew, hrest⟩ := nodup_cons.1 hes
    simp only [foldl_cons, get?] at ih ⊢
    rw [ih _ hrest]
    by_cases hn : e.1 = name
    · subst hn
      rw [Entries.get?_eq_none_iff.2 hnew]
      exact (get?_put_self o e.1 e.2).trans (by simp [Entries.get?])
    · have hput := get?_put_of_ne (Ne.symm hn) o e.2
      simp only [get?] at hput
      simp [Entries.get?, hn, hput]

end Obj

def Tree.keyName? (t : Tree) : Option String := do
  let n ← t.node?
  let name ←
    if n.is "Identifier" then n.get? "name"
    else if n.is "Literal" then n.get? "value"
    else none
  match name with
  | .str s => some s
  | _ => none

/-- How expressions are evaluated and which keys a value has of its own; both may have effects. -/
structure Evaluation (σ V : Type) where
  eval : Tree → σ → V × σ
  own : V → σ → Obj V × σ

namespace Evaluation

variable {σ V : Type} (m : Evaluation σ V)

def members (t : Tree) (s : σ) : Obj V × σ := m.own (m.eval t s).1 (m.eval t s).2

def property (st : Obj V × σ) (t : Tree) : Option (Obj V × σ) := do
  let n ← t.node?
  if n.is "SpreadElement" then
    let r := m.members (n.get "argument") st.2
    return (st.1.copy r.1, r.2)
  else
    guard (n.is "Property" && (n.get "kind").isText "init" && !(n.get "computed").truthy)
    let name ← (n.get "key").keyName?
    let r := m.eval (n.get "value") st.2
    return (st.1.put name r.1, r.2)

def literal (t : Tree) (s : σ) : Option (Obj V × σ) := do
  let n ← t.node?
  guard (n.is "ObjectExpression")
  match n.get "properties" with
  | .list properties => properties.foldlM m.property (Obj.empty, s)
  | _ => none

end Evaluation

namespace Lowering

def Export.name? (e : Export) : Option String := if e.spread then none else e.exported.keyName?

/-- A record with an expression, and a name unless all that it has is exported. -/
structure Export.Sound (e : Export) : Prop where
  declaration : ∃ d : Node, e.declaration = d.toTree ∧ Called d
  name : e.spread = true ∨ ∃ name, e.name? = some name

inductive Contribution (V : Type) where
  | value (v : V)
  | members (o : Obj V)

def overwriting {V : Type} (name : String) : List (Contribution V) → Option V
  | [] => none
  | .value _ :: cs => overwriting name cs
  | .members o :: cs => (overwriting name cs).or (o.get? name)

section Evaluating

variable {σ V : Type} (m : Evaluation σ V)

def contribution (e : Export) (s : σ) : Contribution V × σ :=
  if e.spread then (.members (m.members e.declaration s).1, (m.members e.declaration s).2)
  else (.value (m.eval e.declaration s).1, (m.eval e.declaration s).2)

/-- What the records give if their declarations are evaluated one after the other. -/
def contributions : List Export → σ → List (Contribution V) × σ
  | [], s => ([], s)
  | e :: es, s =>
    ((contribution m e s).1 :: (contributions es (contribution m e s).2).1,
      (contributions es (contribution m e s).2).2)

variable {m} {e : Export} {t : Tree} {least : Nat}

lemma called_of_keyName? {n : Node} (h : n.toTree.keyName? = some name) : Called n := by
  intro hn
  cases hname : n.get? "name" with
  | some value => exact ⟨value, rfl⟩
  | none => simp [Tree.keyName?, Tree.node?_toTree, hn, hname] at h

lemma Export.Sound.succeeds (h : e.Sound) : Succeeds (exportProperty e) fun _ => True := by
  obtain ⟨d, hd, hcalled⟩ := h.declaration
  refine succeeds_exportProperty hd hcalled ?_
  by_cases hspread : e.spread = true
  · exact .inl hspread
  · obtain ⟨name, hname⟩ := h.name.resolve_left hspread
    simp only [Export.name?, hspread, if_neg, Bool.false_eq_true, not_false_eq_true] at hname
    cases hkey : e.exported.node? with
    | none => simp [Tree.keyName?, hkey] at hname
    | some key =>
      have hkey := Tree.toTree_of_node? hkey
      exact .inr ⟨key, hkey.symm, called_of_keyName? (hkey ▸ hname)⟩

variable (m) in
def placed (st : Obj V × σ) (e : Export) : Obj V × σ :=
  match e.name? with
  | some name => (st.1.put name (m.eval e.declaration st.2).1, (m.eval e.declaration st.2).2)
  | none => (st.1.copy (m.members e.declaration st.2).1, (m.members e.declaration st.2).2)

lemma property_of_exported (h : Exported least e t) (hsound : e.Sound) (st : Obj V × σ) :
    m.property st t = some (placed m st e) := by
  cases h with
  | spread hspread =>
    have hname : e.name? = none := by simp [Export.name?, hspread]
    simp only [placed, hname]
    rfl
  | @property i key shorthand hspread _ hkey =>
    obtain ⟨name, hname⟩ := hsound.name.resolve_left (by simp [hspread])
    have hkeyed : key.keyName? = some name := by
      rw [Export.name?, if_neg (by simp [hspread])] at hname
      rcases hkey with rfl | ⟨-, n, j, -, hn, rfl⟩
      · exact hname
      -- the copy has another number, and the same name
      · rw [hn] at hname
        exact hname
    have hget : (⟨i, .str "Property", [("key", key), ("value", e.declaration),
        ("kind", .str "init"), ("method", .bool false), ("shorthand", .bool shorthand),
        ("computed", .bool false)]⟩ : Node).get "key" = key := rfl
    simp only [Evaluation.property, Tree.node?, hget, hkeyed, placed, hname, Option.bind_eq_bind,
      Option.bind_some]
    rfl

lemma foldlM_exported {records : List Export} {ps : List Tree}
    (h : Forall₂ (Exported least) records ps) (hsound : ∀ e ∈ records, e.Sound)
    (st : Obj V × σ) :
    ps.foldlM m.property st = some (records.foldl (placed m) st) := by
  induction h generalizing st with
  | nil => rfl
  | @cons e t records ps he _ ih =>
    rw [foldlM_cons, property_of_exported he (hsound e mem_cons_self)]
    exact ih (fun e' he' => hsound e' (mem_cons_of_mem e he')) _

lemma contribution_of_keyed (h : e.name? = some name) (s : σ) :
    contribution m e s = (.value (m.eval e.declaration s).1, (m.eval e.declaration s).2) := by
  apply if_neg
  intro hspread
  simp [Export.name?, hspread] at h

lemma contribution_of_spread (hsound : e.Sound) (h : e.name? = none) (s : σ) :
    contribution m e s =
      (.members (m.members e.declaration s).1, (m.members e.declaration s).2) := by
  apply if_pos
  rcases hsound.name with hspread | ⟨name, hname⟩
  · exact hspread
  · rw [h] at hname
    cases hname

lemma foldl_placed_snd {records : List Export} (hsound : ∀ e ∈ records, e.Sound) (st : Obj V × σ) :
    (records.foldl (placed m) st).2 = (contributions m records st.2).2 := by
  induction records generalizing st with
  | nil => rfl
  | cons e records ih =>
    have hstep : (placed m st e).2 = (contribution m e st.2).2 := by
      cases hname : e.name? with
      | some name => simp only [placed, hname, contribution_of_keyed hname]
      | none =>
        simp only [placed, hname, contribution_of_spread (hsound e mem_cons_self) hname]
    rw [foldl_cons, ih fun e' he' => hsound e' (mem_cons_of_mem e he'), hstep]
    rfl

lemma get?_foldl_placed {records : List Export} (hsound : ∀ e ∈ records, e.Sound)
    (hnone : ∀ e ∈ records, e.name? ≠ some name) (st : Obj V × σ) :
    (records.foldl (placed m) st).1.get? name =
      (overwriting name (contributions m records st.2).1).or (st.1.get? name) := by
  induction records generalizing st with
  | nil => rfl
  | cons e records ih =>
    rw [foldl_cons, ih (fun e' he' => hsound e' (mem_cons_of_mem e he'))
      fun e' he' => hnone e' (mem_cons_of_mem e he')]
    cases hname : e.name? with
    | some other =>
      have hne : name ≠ other := by
        rintro rfl
        exact hnone e mem_cons_self hname
      simp only [placed, hname, contributions, contribution_of_keyed hname, overwriting,
        Obj.get?_put_of_ne hne]
    | none =>
      simp only [placed, hname, contributions,
        contribution_of_spread (hsound e mem_cons_self) hname, overwriting, Obj.get?_copy,
        Option.or_assoc]

lemma get?_foldl_placed_of_keyed {before after : List Export} (hbefore : ∀ e ∈ before, e.Sound)
    (hafter : ∀ e ∈ after, e.Sound) (hname : e.name? = some name)
    (hnone : ∀ e' ∈ after, e'.name? ≠ some name) (st : Obj V × σ) :
    ((before ++ e :: after).foldl (placed m) st).1.get? name =
      some ((overwriting name (contributions m after
          (m.eval e.declaration (contributions m before st.2).2).2).1).getD
        (m.eval e.declaration (contributions m before st.2).2).1) := by
  rw [foldl_append, foldl_cons, get?_foldl_placed hafter hnone]
  simp only [placed, hname, Obj.get?_put_self, foldl_placed_snd hbefore]
  cases overwriting name _ <;> rfl

lemma name?_ne_of_nodup {before after : List Export}
    (h : ((before ++ e :: after).filterMap Export.name?).Nodup) (hname : e.name? = some name) :
    ∀ e' ∈ after, e'.name? ≠ some name := by
  rw [filterMap_append, filterMap_cons_some hname] at h
  intro e' he' heq
  exact (nodup_cons.1 h.of_append_right).1 (mem_filterMap.2 ⟨e', he', heq⟩)

/-- With distinct names, the object is made, its properties evaluate the declarations in order, and
under the name of a record stands the value of its declaration, unless an object that is spread later
has that name: then the last of these counts. All other names come from what is spread. -/
theorem exportsObject_value_or_later_spread {records : List Export}
    (hsound : ∀ e ∈ records, e.Sound) (hdistinct : (records.filterMap Export.name?).Nodup)
    (m : Evaluation σ V) (next : Nat) (s : σ) :
    ∃ tree next' obj, exportsObject records next = (.ok tree, next') ∧
      m.literal tree s = some (obj, (contributions m records s).2) ∧
      (∀ before e after name, records = before ++ e :: after → e.name? = some name →
        obj.get? name = some ((overwriting name (contributions m after
            (m.eval e.declaration (contributions m before s).2).2).1).getD
          (m.eval e.declaration (contributions m before s).2).1)) ∧
      ∀ name, (∀ e ∈ records, e.name? ≠ some name) →
        obj.get? name = overwriting name (contributions m records s).1 := by
  have hmade : Succeeds (exportsObject records) fun _ => True :=
    .bind (.mapM fun e he => (hsound e he).succeeds) fun _ _ => .made _
  obtain ⟨tree, next', htree, -⟩ := hmade next
  obtain ⟨-, i, ps, -, hps, rfl⟩ :=
    supplies_exportsObject next records next tree next' (Nat.le_refl next) htree
  refine ⟨_, next', (records.foldl (placed m) (Obj.empty, s)).1, htree, ?_, ?_, fun name hnone => ?_⟩
  · rw [← foldl_placed_snd hsound (Obj.empty, s)]
    exact foldlM_exported hps hsound (Obj.empty, s)
  · rintro before e after name rfl hname
    exact get?_foldl_placed_of_keyed (fun e he => hsound e (by simp [he]))
      (fun e he => hsound e (by simp [he])) hname (name?_ne_of_nodup hdistinct hname) _
  · rw [get?_foldl_placed hsound hnone, Obj.get?_empty, Option.or_none]

theorem exportsObject_value_or_later_spread_between :
    let a : Export := ⟨(identifier (.str "a") 0).1, (identifier (.str "x") 1).1, false⟩
    let b : Export := ⟨(identifier (.str "m") 2).1, .null, true⟩
    let c : Export := ⟨(identifier (.str "c") 3).1, (literal (.str "y z") 4).1, false⟩
    let m : Evaluation Nat Nat :=
      ⟨fun _ s => (s, s + 1), fun v s => ((Obj.empty.put "x" (v + 10)).put "y z" v, s)⟩
    (∀ e ∈ [a, b, c], e.Sound) ∧ ([a, b, c].filterMap Export.name?).Nodup ∧
    ∃ tree next obj, exportsObject [a, b, c] 5 = (.ok tree, next) ∧
      m.literal tree 0 = some (obj, 3) ∧ obj.get? "x" = some 11 ∧ obj.get? "y z" = some 2 := by
  intro a b c m
  have hcalled (name : Tree) (i : Nat) : ∃ d : Node, (identifier name i).1 = d.toTree ∧
      Called d :=
    ⟨⟨i, .str "Identifier", [("name", name)]⟩, rfl, fun _ => ⟨name, rfl⟩⟩
  have hsound : ∀ e ∈ [a, b, c], e.Sound := by
    simp only [forall_mem_cons, not_mem_nil, false_implies, implies_true, and_true]
    exact ⟨⟨hcalled _ _, .inr ⟨"x", by decide⟩⟩, ⟨hcalled _ _, .inl rfl⟩,
      ⟨hcalled _ _, .inr ⟨"y z", by decide⟩⟩⟩
  have hdistinct : ([a, b, c].filterMap Export.name?).Nodup := by decide
  obtain ⟨tree, next, obj, htree, hobj, hkeyed, -⟩ :=
    exportsObject_value_or_later_spread hsound hdistinct m 5 0
  exact ⟨hsound, hdistinct, tree, next, obj, htree, hobj,
    hkeyed [] a [b, c] "x" rfl (by decide), hkeyed [a, b] c [] "y z" rfl (by decide)⟩

theorem later_spread_overwrites_export :
    let a : Export := ⟨(identifier (.str "a") 0).1, (identifier (.str "x") 1).1, false⟩
    let b : Export := ⟨(identifier (.str "m") 2).1, .null, true⟩
    let m : Evaluation Unit Nat :=
      ⟨fun t s => (if t.keyName? = some "a" then 1 else 2, s), fun v s => (Obj.empty.put "x" v, s)⟩
    ([a, b].filterMap Export.name?).Nodup ∧ (m.eval a.declaration ()).1 = 1 ∧
    ∃ tree next obj, exportsObject [a, b] 3 = (.ok tree, next) ∧
      m.literal tree () = some (obj, ()) ∧ a.name? = some "x" ∧ obj.get? "x" = some 2 := by
  intro a b m
  exact ⟨by decide, by decide, _, _, _, rfl, rfl, by decide, by decide⟩

end Evaluating

end Lowering

end Overload
