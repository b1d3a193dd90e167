import Mathlib.Data.List.Forall2
import Overload.Lowering.Modules
import Overload.Proofs.Visit.Path
import Overload.Proofs.Visit.Triple

/-!
The identifiers that a pattern binds, as a relation on its parts: defaults, rests and nested
patterns are followed, holes bind nothing.
-/

namespace Overload.Lowering

open Visit List Overload.Tree Node Except

inductive Target where
  | one (role : Role) (t : Tree)
  | all (role : Role) (ts : List Tree)

def Target.trees : Target → List Tree
  | .one _ t => [t]
  | .all _ ts => ts

def Target.role : Target → Role
  | .one role _ => role
  | .all role _ => role

def Target.Each (P : Node → Prop) (target : Target) : Prop :=
  ∀ c : Node, c.toTree ∈ target.trees → P c ∧
    (target.role = .property → ∃ kind ∈ ["Property", "RestElement"], c.is kind = true)

lemma Target.each_one {P : Node → Prop} {t : Tree} (h : Parts P t) :
    Target.Each P (.one .pattern t) :=
  fun c hc => ⟨h c (.inl (mem_singleton.1 hc).symm), nofun⟩

inductive Binds : Target → List Tree → Prop
  | identifier {n : Node} : n.is "Identifier" = true → Binds (.one .pattern n.toTree) [n.toTree]
  | default {n : Node} {t : Tree} {names : List Tree} : n.is "AssignmentPattern" = true →
      n.get? "left" = some t → Binds (.one .pattern t) names → Binds (.one .pattern n.toTree) names
  | rest {n : Node} {t : Tree} {names : List Tree} : n.is "RestElement" = true →
      n.get? "argument" = some t → Binds (.one .pattern t) names →
      Binds (.one .pattern n.toTree) names
  | object {n : Node} {t : Tree} {ts names : List Tree} : n.is "ObjectPattern" = true →
      n.get? "properties" = some t → t.elements = .ok ts → Binds (.all .property ts) names →
      Binds (.one .pattern n.toTree) names
  | array {n : Node} {t : Tree} {ts names : List Tree} : n.is "ArrayPattern" = true →
      n.get? "elements" = some t → t.elements = .ok ts → Binds (.all .pattern ts) names →
      Binds (.one .pattern n.toTree) names
  | property {n : Node} {t : Tree} {names : List Tree} : n.is "Property" = true →
      n.get? "value" = some t → Binds (.one .pattern t) names →
      Binds (.one .property n.toTree) names
  | remaining {n : Node} {t : Tree} {names : List Tree} : n.is "Property" = false →
      n.get? "argument" = some t → Binds (.one .pattern t) names →
      Binds (.one .property n.toTree) names
  | nil {role : Role} : Binds (.all role []) []
  | hole {ts names : List Tree} : Binds (.all .pattern ts) names →
      Binds (.all .pattern (.null :: ts)) names
  | cons {role : Role} {t : Tree} {ts names rest : List Tree} : Binds (.one role t) names →
      Binds (.all role ts) rest → Binds (.all role (t :: ts)) (names ++ rest)

def boundAs (role : Role) (t : Tree) : Except Fault (List Tree) :=
  t.fold nodeBound (fun _ _ => .error .noAttribute) role

def isBinding : Role → Tree → Bool
  | .pattern, t => !t.isNull
  | .property, _ => true

def boundAll (role : Role) (ts : List Tree) : Except Fault (List Tree) :=
  runAll ((ts.filter (isBinding role)).map fun t _ => boundAs role t)

abbrev boundResults (n : Node) : String → Option (Folded Bound) :=
  fieldResults nodeBound (fun _ _ => .error .noAttribute) n

variable {role : Role} {n : Node} {name : String} {t : Tree} {ts names : List Tree}

lemma boundAs_toTree (role : Role) (n : Node) :
    boundAs role n.toTree = nodeBound n (boundResults n) role := rfl

lemma boundBy_eq (hne : name ≠ "type") (ht : n.get? name = some t) :
    boundBy (boundResults n) name = boundAs .pattern t := by
  rw [boundBy, boundResults, fieldResults_of_ne _ _ n hne, ht]
  cases t <;> rfl

lemma boundBy_attr (hne : name ≠ "type") :
    boundBy (boundResults n) name = n.attr name >>= boundAs .pattern := by
  cases ht : n.get? name with
  | none =>
    rw [boundBy, boundResults, fieldResults_of_ne _ _ n hne, ht, Node.attr, ht]
    rfl
  | some t =>
    rw [boundBy_eq hne ht, Node.attr, ht]
    rfl

lemma boundAll_texts {α : Type} (role : Role) (xs : List α) (f : α → String) :
    boundAll role (xs.map fun x => .str (f x)) =
      if xs.isEmpty then .ok [] else .error .noAttribute := by
  cases xs with
  | nil => rfl
  | cons x xs => cases role <;> rfl

lemma boundByAll_eq (role : Role) (hne : name ≠ "type") (ht : n.get? name = some t) :
    boundByAll (boundResults n) name role (isBinding role) = t.elements >>= boundAll role := by
  have hsingle (x : Tree) (hx : ∀ ts, x.elements = .ok ts →
      boundAll role ts = if ts.isEmpty then .ok [] else .error .noAttribute) :
      (do if (← x.elements).isEmpty then return [] else .error .noAttribute) =
        (x.elements >>= boundAll role) := by
    cases he : x.elements with
    | error e => rfl
    | ok ts => exact (hx ts he).symm
  rw [boundByAll, boundResults, fieldResults_of_ne _ _ n hne, ht]
  cases t with
  | list xs =>
    change runAll (((xs.map fun x => (x, _)).filter _).map _) = _
    rw [filter_map, map_map]
    rfl
  | str s =>
    refine hsingle (.str s) fun ts hts => ?_
    obtain rfl := Except.ok.inj hts
    rw [isEmpty_map]
    exact boundAll_texts role s.toList String.singleton
  | object es =>
    refine hsingle (.object es) fun ts hts => ?_
    obtain rfl := Except.ok.inj hts
    rw [isEmpty_map]
    exact boundAll_texts role es (·.1)
  | _ => rfl

lemma boundByAll_attr (hne : name ≠ "type") :
    boundByAll (boundResults n) name role (isBinding role) =
      n.attr name >>= fun t => t.elements >>= boundAll role := by
  cases ht : n.get? name with
  | none =>
    rw [boundByAll, boundResults, fieldResults_of_ne _ _ n hne, ht, Node.attr, ht]
    rfl
  | some t =>
    rw [boundByAll_eq role hne ht, Node.attr, ht]
    rfl

lemma boundAll_cons (t : Tree) (ts : List Tree) : boundAll role (t :: ts) =
    if isBinding role t then do return (← boundAs role t) ++ (← boundAll role ts)
    else boundAll role ts := by
  rw [boundAll, filter_cons]
  split <;> rfl

def Target.bound : Target → Except Fault (List Tree)
  | .one role t => boundAs role t
  | .all role ts => boundAll role ts

theorem Binds.bound {target : Target} (h : Binds target names) : target.bound = .ok names := by
  induction h with
  | @identifier n hn =>
    change nodeBound n (boundResults n) .pattern = _
    rw [nodeBound, is_iff.1 hn]
    rfl
  | @default n t names hn ht _ ih | @rest n t names hn ht _ ih =>
    change nodeBound n (boundResults n) .pattern = _
    rw [nodeBound, is_iff.1 hn]
    exact (boundBy_eq (by decide) ht).trans ih
  | @object n t ts names hn ht hts _ ih =>
    change nodeBound n (boundResults n) .pattern = _
    rw [nodeBound, is_iff.1 hn]
    refine (boundByAll_eq .property (by decide) ht).trans ?_
    rw [hts]
    exact ih
  | @array n t ts names hn ht hts _ ih =>
    change nodeBound n (boundResults n) .pattern = _
    rw [nodeBound, is_iff.1 hn]
    refine (boundByAll_eq .pattern (by decide) ht).trans ?_
    rw [hts]
    exact ih
  | @property n t names hn ht _ ih =>
    change nodeBound n (boundResults n) .property = _
    rw [nodeBound, if_pos hn, boundBy_eq (by decide) ht]
    exact ih
  | @remaining n t names hn ht _ ih =>
    change nodeBound n (boundResults n) .property = _
    rw [nodeBound, if_neg (by simp [hn]), boundBy_eq (by decide) ht]
    exact ih
  | nil => rfl
  | hole _ ih => exact ih
  | @cons role t ts names rest ht _ iht ihts =>
    have hbinding : isBinding role t = true := by cases ht <;> rfl
    change boundAll role (t :: ts) = _
    rw [boundAll_cons, if_pos hbinding]
    change (do return (← Target.bound (.one role t)) ++ (← Target.bound (.all role ts))) = _
    rw [iht, ihts]
    rfl

lemma size_element_lt (h : t.elements = .ok ts) {c : Node} (hc : c.toTree ∈ ts) :
    c.toTree.size < t.size := by
  unfold elements at h
  split at h
  · obtain rfl := ok.inj h
    obtain ⟨i, hi⟩ := getElem?_of_mem hc
    exact size_getElem?_lt hi
  · obtain rfl := ok.inj h
    simp [ofChar, toTree] at hc
  · obtain rfl := ok.inj h
    simp [toTree] at hc
  · cases h

lemma isNode_of_boundAs (h : boundAs role t = .ok names) : ∃ n : Node, t = n.toTree := by
  cases hn : t.node? with
  | none => cases t <;> first | cases h | cases hn
  | some n => exact ⟨n, (toTree_of_node? hn).symm⟩

lemma binds_all (h : ∀ t ∈ ts, ∀ names, boundAs role t = .ok names → Binds (.one role t) names)
    (hall : boundAll role ts = .ok names) : Binds (.all role ts) names := by
  induction ts generalizing names with
  | nil =>
    obtain rfl := Except.ok.inj hall
    exact .nil
  | cons t ts ih =>
    have hrest {us : List Tree} : boundAll role ts = .ok us → Binds (.all role ts) us :=
      ih fun u hu => h u (by simp [hu])
    rw [boundAll_cons] at hall
    split at hall
    · cases ht : boundAs role t with
      | error e => simp [ht] at hall
      | ok us =>
        cases hts : boundAll role ts with
        | error e => simp [ht, hts] at hall
        | ok vs =>
          obtain rfl : us ++ vs = names := by
            simpa [ht, hts] using hall
          exact .cons (h t (by simp) us ht) (hrest hts)
    · rename_i hno
      cases role with
      | property => exact absurd rfl hno
      | pattern =>
        obtain rfl : t = .null := by
          cases t <;> first | rfl | exact absurd rfl hno
        exact .hole (hrest hall)

lemma binds_of_boundAs (h : boundAs role t = .ok names) : Binds (.one role t) names := by
  induction hs : t.size using Nat.strongRecOn generalizing role t names with
  | ind size ih =>
    obtain ⟨n, rfl⟩ := isNode_of_boundAs h
    have hfield {name : String} {t : Tree} (hne : n.get? name = some t) : t.size < size := by
      have := size_get_lt n name
      rw [Node.get, hne] at this
      exact hs ▸ this
    have hone {name : String} (hne : name ≠ "type")
        (h : boundBy (boundResults n) name = .ok names) :
        ∃ t, n.get? name = some t ∧ Binds (.one .pattern t) names := by
      rw [boundBy_attr hne] at h
      obtain ⟨t, ht, h⟩ := except_bind_eq_ok.1 h
      exact ⟨t, attr_eq_ok.1 ht, ih _ (hfield (attr_eq_ok.1 ht)) h rfl⟩
    have hmany {name : String} (role : Role) (hne : name ≠ "type")
        (h : boundByAll (boundResults n) name role (isBinding role) = .ok names) :
        ∃ t ts, n.get? name = some t ∧ t.elements = .ok ts ∧ Binds (.all role ts) names := by
      rw [boundByAll_attr hne] at h
      obtain ⟨t, ht, h⟩ := except_bind_eq_ok.1 h
      obtain ⟨ts, hts, h⟩ := except_bind_eq_ok.1 h
      refine ⟨t, ts, attr_eq_ok.1 ht, hts, binds_all (fun u hu us hus => ?_) h⟩
      obtain ⟨c, rfl⟩ := isNode_of_boundAs hus
      exact ih _ (Nat.lt_trans (size_element_lt hts hu) (hfield (attr_eq_ok.1 ht))) hus rfl
    rw [boundAs_toTree] at h
    cases role with
    | property =>
      rw [nodeBound] at h
      split at h
      · rename_i hp
        obtain ⟨t, ht, hb⟩ := hone (by decide) h
        exact .property hp ht hb
      · rename_i hp
        obtain ⟨t, ht, hb⟩ := hone (by decide) h
        exact .remaining (by simpa using hp) ht hb
    | pattern =>
      rw [nodeBound] at h
      split at h
      · rename_i hk
        obtain rfl := ok.inj h
        exact .identifier (is_iff.2 hk)
      · rename_i hk
        obtain ⟨t, ht, hb⟩ := hone (by decide) h
        exact .default (is_iff.2 hk) ht hb
      · rename_i hk
        obtain ⟨t, ht, hb⟩ := hone (by decide) h
        exact .rest (is_iff.2 hk) ht hb
      · rename_i hk
        obtain ⟨t, ts, ht, hts, hb⟩ := hmany .property (by decide) h
        exact .object (is_iff.2 hk) ht hts hb
      · rename_i hk
        obtain ⟨t, ts, ht, hts, hb⟩ := hmany .pattern (by decide) h
        exact .array (is_iff.2 hk) ht hts hb
      · cases h

theorem boundNames_eq_ok_iff : boundNames t = .ok names ↔ Binds (.one .pattern t) names :=
  ⟨binds_of_boundAs, Binds.bound⟩

def DeclaratorBinds (d : Tree) (names : List Tree) : Prop :=
  ∃ id, d.attr "id" = .ok id ∧ Binds (.one .pattern id) names

inductive Declares (n : Node) : List Tree → Prop
  | patterns {t : Tree} {ds : List Tree} {names : List (List Tree)} :
      n.is "VariableDeclaration" = true → n.get? "declarations" = some t → t.elements = .ok ds →
      Forall₂ DeclaratorBinds ds names → Declares n names.flatten
  | named {kind : String} {id : Tree} : kind ∈ ["FunctionDeclaration", "ClassDeclaration"] →
      n.is kind = true → n.get? "id" = some id → Declares n [id]

lemma mapM_eq_ok_iff {α β : Type} {f : α → Except Fault β} {xs : List α} {ys : List β} :
    xs.mapM f = .ok ys ↔ Forall₂ (fun x y => f x = .ok y) xs ys := by
  induction xs generalizing ys with
  | nil => simp [eq_comm]
  | cons x xs ih =>
    simp only [mapM_cons, except_bind_eq_ok, ih, pure_ok, ok.injEq,
      forall₂_cons_left_iff]
    exact ⟨fun ⟨y, hy, us, hus, h⟩ => ⟨y, us, hy, hus, h.symm⟩,
      fun ⟨y, us, hy, hus, h⟩ => ⟨y, hy, us, hus, h.symm⟩⟩

lemma declarator_eq_ok_iff {d : Tree} : (do boundNames (← d.attr "id")) = .ok names ↔
    DeclaratorBinds d names := by
  simp only [except_bind_eq_ok, boundNames_eq_ok_iff, DeclaratorBinds]

lemma declaredNames_eq_ok_iff : declaredNames n.toTree = .ok names ↔ Declares n names := by
  have hkind : n.toTree.kind = .ok n.kind := rfl
  have hattr {name : String} {t : Tree} : n.toTree.attr name = .ok t ↔ n.get? name = some t :=
    attr_eq_ok
  have hone {kind : String} (hk : n.is kind = true)
      (hmem : kind ∈ ["FunctionDeclaration", "ClassDeclaration"])
      (h : (do return [← n.toTree.attr "id"]) = .ok names) : Declares n names := by
    obtain ⟨id, hid, h⟩ := except_bind_eq_ok.1 h
    obtain rfl := ok.inj h
    exact .named hmem hk (hattr.1 hid)
  constructor
  · intro h
    obtain ⟨kind, hk, h⟩ := except_bind_eq_ok.1 h
    obtain rfl := ok.inj hk
    split at h
    · rename_i hk
      obtain ⟨t, ht, h⟩ := except_bind_eq_ok.1 h
      obtain ⟨ds, hds, h⟩ := except_bind_eq_ok.1 h
      obtain ⟨nss, hnss, h⟩ := except_bind_eq_ok.1 h
      obtain rfl := ok.inj h
      simp only [mapM_eq_ok_iff, declarator_eq_ok_iff] at hnss
      exact .patterns (is_iff.2 hk) (hattr.1 ht) hds hnss
    · rename_i hk
      exact hone (is_iff.2 hk) (by simp) h
    · rename_i hk
      exact hone (is_iff.2 hk) (by simp) h
    · cases h
  · rintro (⟨hk, ht, hds, hnss⟩ | ⟨hmem, hk, hid⟩)
    · refine except_bind_eq_ok.2 ⟨_, hkind, ?_⟩
      rw [is_iff.1 hk]
      refine except_bind_eq_ok.2 ⟨_, hattr.2 ht, except_bind_eq_ok.2 ⟨_, hds, ?_⟩⟩
      refine except_bind_eq_ok.2 ⟨_, mapM_eq_ok_iff.2 ?_, rfl⟩
      simpa only [declarator_eq_ok_iff] using hnss
    · refine except_bind_eq_ok.2 ⟨_, hkind, ?_⟩
      rw [is_iff.1 hk]
      rcases mem_pair.1 hmem with rfl | rfl <;>
        exact except_bind_eq_ok.2 ⟨_, hattr.2 hid, rfl⟩

lemma declares_of_declaredNames (h : declaredNames t = .ok names) :
    ∃ n : Node, t = n.toTree ∧ Declares n names := by
  obtain ⟨kind, hk, -⟩ := except_bind_eq_ok.1 h
  obtain ⟨n, hn, -⟩ := except_bind_eq_ok.1 hk
  obtain rfl := asNode_eq_ok.1 hn
  exact ⟨n, rfl, declaredNames_eq_ok_iff.1 h⟩

structure Shape where
  kind : Kind
  key : String
  kinds : List String

def shapes : List Shape :=
  [⟨.exportNamedDeclaration, "specifiers", ["ExportSpecifier"]⟩,
    ⟨.importNamespaceSpecifier, "local", ["Identifier"]⟩,
    ⟨.functionDeclaration, "id", ["Identifier"]⟩, ⟨.classDeclaration, "id", ["Identifier"]⟩,
    ⟨.variableDeclaration, "declarations", ["VariableDeclarator"]⟩,
    ⟨.objectPattern, "properties", ["Property", "RestElement"]⟩]

def Shape.Holds (shape : Shape) (n : Node) : Prop :=
  n.is shape.kind.name = true →
    Parts (fun c => ∃ kind ∈ shape.kinds, c.is kind = true) (n.get shape.key)

structure Formed (n : Node) : Prop where
  name : n.is "Identifier" = true → ∃ s, n.get? "name" = some (.str s)
  shape : ∀ shape ∈ shapes, shape.Holds n

instance (shape : Shape) : DecidablePred shape.Holds :=
  fun n => inferInstanceAs (Decidable (n.is shape.kind.name = true → Parts _ (n.get shape.key)))

instance : DecidablePred Formed := fun n =>
  have : Decidable (∃ s, n.get? "name" = some (.str s)) :=
    match n.get? "name" with
    | some (.str s) => isTrue ⟨s, rfl⟩
    | none => isFalse nofun
    | some .null | some .undefined | some (.bool _) | some (.num _) | some (.list _)
    | some (.object _) | some (.node _ _ _) => isFalse nofun
  decidable_of_iff ((n.is "Identifier" = true → ∃ s, n.get? "name" = some (.str s)) ∧
    ∀ shape ∈ shapes, shape.Holds n) ⟨fun h => ⟨h.1, h.2⟩, fun h => ⟨h.1, h.2⟩⟩

lemma formed_of_kind {n : Node} {kind : String} (hk : n.kind = .str kind)
    (hname : kind = "Identifier" → ∃ s, n.get? "name" = some (.str s))
    (hshape : kind ∉ shapes.map (·.kind.name)) : Formed n where
  name hn := hname (by simpa [is_of_kind hk] using hn)
  shape shape hmem his := by
    rw [is_of_kind hk, beq_iff_eq] at his
    exact absurd (his ▸ mem_map_of_mem hmem) hshape

lemma formed_of_other {n : Node} {kind : String} (hk : n.kind = .str kind)
    (h : kind ∉ "Identifier" :: shapes.map (·.kind.name)) : Formed n := by
  obtain ⟨hname, hshape⟩ := not_or.1 (mem_cons.not.1 h)
  exact formed_of_kind hk (fun he => absurd he hname) hshape

lemma formed_of_shape {n : Node} (K : Kind) (hk : n.kind = .str K.name)
    (hK : K.name ≠ "Identifier") (h : ∀ shape ∈ shapes, shape.kind = K →
      Parts (fun c => ∃ kind ∈ shape.kinds, c.is kind = true) (n.get shape.key)) : Formed n where
  name hn := absurd (by simpa [is_of_kind hk] using hn) hK
  shape shape hmem his := by
    rw [is_of_kind hk, beq_iff_eq] at his
    have hkinds := congrArg Kind.ofName? his
    rw [Kind.ofName?_name, Kind.ofName?_name] at hkinds
    exact h shape hmem (Option.some.inj hkinds).symm

end Overload.Lowering
