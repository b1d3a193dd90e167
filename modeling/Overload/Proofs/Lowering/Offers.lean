import Overload.Proofs.Lowering.Scope
import Overload.Proofs.Lowering.Visits

/-!
What the statements of a program offer to others, as the source says it, and what makes such an
offer good in the lowered program.
-/

namespace Overload.Lowering

open Visit List Build Except

structure Specifier where
  bound : Node
  exported : Node

inductive Offer where
  | nothing (b : Node)
  | declaration (c : Node) (names : List String)
  | locals (specifiers : List Specifier)
  | passed (source : Node) (specifiers : List Specifier)
  | defaultName (c : Node) (name : String)
  | defaultValue (c : Node)
  | all (source : Node)
  | space (source exported : Node)

def IsName (n : Node) : Prop := ∃ kind ∈ nameKinds, n.is kind = true

structure Specifies (n : Node) (s : Specifier) : Prop where
  kind : n.is "ExportSpecifier" = true
  bound : n.get? "local" = some s.bound.toTree
  exported : n.get? "exported" = some s.exported.toTree
  bound_name : IsName s.bound
  exported_name : IsName s.exported

def Lists (b : Node) (specifiers : List Specifier) : Prop :=
  ∃ nodes : List Node, b.get? "specifiers" = some (.list (nodes.map Node.toTree)) ∧
    Forall₂ Specifies nodes specifiers

def declarationKinds : List String := ["FunctionDeclaration", "ClassDeclaration"]

inductive Offers (b : Node) : Offer → Prop
  | nothing : (∀ kind ∈ exportKinds, b.is kind = false) → Offers b (.nothing b)
  | declaration {c : Node} {xs : List Tree} {names : List String} :
      b.is "ExportNamedDeclaration" = true → (b.get "source").isNull = true →
      b.get? "declaration" = some c.toTree → Declares c xs →
      Forall₂ (fun x name => ∃ n : Node, x = n.toTree ∧ Names n name) xs names →
      Offers b (.declaration c names)
  | locals {specifiers : List Specifier} : b.is "ExportNamedDeclaration" = true →
      (b.get "source").isNull = true → (b.get "declaration").isNull = true →
      Lists b specifiers → Offers b (.locals specifiers)
  | passed {source : Node} {specifiers : List Specifier} : b.is "ExportNamedDeclaration" = true →
      b.get? "source" = some source.toTree → source.is "Literal" = true → Lists b specifiers →
      Offers b (.passed source specifiers)
  | defaultName {c id : Node} {kind name : String} : b.is "ExportDefaultDeclaration" = true →
      b.get? "declaration" = some c.toTree → kind ∈ declarationKinds → c.is kind = true →
      c.get? "id" = some id.toTree → Names id name → Offers b (.defaultName c name)
  | defaultValue {c : Node} : b.is "ExportDefaultDeclaration" = true →
      b.get? "declaration" = some c.toTree →
      ((∃ kind ∈ declarationKinds, c.is kind = true) → (c.get "id").isNull = true) →
      Offers b (.defaultValue c)
  | all {source : Node} : b.is "ExportAllDeclaration" = true →
      b.get? "source" = some source.toTree → source.is "Literal" = true →
      (b.get "exported").isNull = true → Offers b (.all source)
  | space {source exported : Node} : b.is "ExportAllDeclaration" = true →
      b.get? "source" = some source.toTree → source.is "Literal" = true →
      b.get? "exported" = some exported.toTree → IsName exported → Offers b (.space source exported)

def LowersWithin (start final : Progress State) (c m : Node) : Prop :=
  ∃ p q, Extends start p ∧ Lowers c p m q ∧ Extends q final

def Keyed (key : Node) (value : Tree) (shorthand : Bool) (t : Tree) : Prop :=
  ∃ i j, t = (property { key with id := i }.toTree value (.bool shorthand) (.bool false) j).1

def identifierOf (name : String) : Node := ⟨0, .str "Identifier", [("name", .str name)]⟩

def KeyedName (key : Node) (name : String) (shorthand : Bool) (t : Tree) : Prop :=
  ∃ i, Keyed key (identifier (.str name) i).1 shorthand t

def ImportCall (s : State) (source : Node) (t : Tree) : Prop :=
  ∃ name k, s.importFn = some name ∧
    let call := (Build.call (identifier (.str name) k).1 [source.toTree] (k + 1)).1
    t = if s.options.awaitsImports then (await call (k + 2)).1 else call

inductive Passed : List Specifier → List String → List Tree → List Tree → Prop
  | nil : Passed [] [] [] []
  | cons {s : Specifier} {ss : List Specifier} {name : String} {names : List String}
      {binding property : Tree} {bindings properties : List Tree} :
      KeyedName s.bound name false binding → KeyedName s.exported name false property →
      Passed ss names bindings properties →
      Passed (s :: ss) (name :: names) (binding :: bindings) (property :: properties)

inductive Fulfils (start final : Progress State) (b : Node) :
    Offer → List Tree → List String → Prop
  | nothing {c : Node} : LowersWithin start final c b → Fulfils start final b (.nothing c) [] []
  | declaration {c : Node} {names : List String} {ps : List Tree} : LowersWithin start final c b →
      Forall₂ (fun name => KeyedName (identifierOf name) name true) names ps →
      Fulfils start final b (.declaration c names) ps []
  | locals {specifiers : List Specifier} {ps : List Tree} : b.is "EmptyStatement" = true →
      Forall₂ (fun s t => ∃ shorthand, Keyed s.exported s.bound.toTree shorthand t ∧
        (shorthand = true ↔ ∃ name, Names s.exported name ∧ Names s.bound name)) specifiers ps →
      Fulfils start final b (.locals specifiers) ps []
  | passed {source : Node} {specifiers : List Specifier} {call : Tree} {bindings ps : List Tree}
      {names : List String} {i j : Nat} : ImportCall final.state source call →
      b.toTree = (constant (objectPattern bindings i).1 call j).1 →
      Passed specifiers names bindings ps → Fulfils start final b (.passed source specifiers) ps names
  | defaultName {c : Node} {name : String} {t : Tree} : LowersWithin start final c b →
      b.id = c.id → b.kind = c.kind →
      KeyedName (identifierOf "default") name ("default" == name) t →
      Fulfils start final b (.defaultName c name) [t] []
  | defaultValue {c m : Node} {shorthand : Bool} {t : Tree} : LowersWithin start final c m →
      b.is "EmptyStatement" = true → Keyed (identifierOf "default") m.toTree shorthand t →
      (shorthand = true ↔ Names m "default") → Fulfils start final b (.defaultValue c) [t] []
  | all {source : Node} {call : Tree} {i : Nat} : ImportCall final.state source call →
      b.is "EmptyStatement" = true →
      Fulfils start final b (.all source) [(spread call i).1] []
  | space {source exported : Node} {call t : Tree} : ImportCall final.state source call →
      b.is "EmptyStatement" = true → Keyed exported call false t →
      Fulfils start final b (.space source exported) [t] []

/-- The statements of a program make their offers good one after the other. -/
inductive Fulfilled (start final : Progress State) :
    List Offer → List Node → List Tree → List String → Prop
  | nil : Fulfilled start final [] [] [] []
  | cons {o : Offer} {os : List Offer} {b : Node} {bs : List Node} {ps qs : List Tree}
      {names rest : List String} : Fulfils start final b o ps names →
      Fulfilled start final os bs qs rest →
      Fulfilled start final (o :: os) (b :: bs) (ps ++ qs) (names ++ rest)

section Rendering

variable {x : Node} {d t : Tree}

lemma Exported.keyed (h : Exported 0 ⟨d, x.toTree, false⟩ t) :
    ∃ shorthand, Keyed x d shorthand t ∧ sameName x.toTree d = .ok shorthand := by
  generalize he : (⟨d, x.toTree, false⟩ : Export) = e at h
  cases h with
  | spread hs =>
    subst he
    cases hs
  | @property i key shorthand _ _ hkey hsame =>
    subst he
    rcases hkey with rfl | ⟨-, n, j, -, hn, rfl⟩
    · exact ⟨shorthand, ⟨x.id, i, rfl⟩, hsame⟩
    · obtain rfl := Node.toTree_injective hn
      exact ⟨shorthand, ⟨j, i, rfl⟩, hsame⟩

lemma sameName_eq_ok {key value : Node} (hk : key.is "Identifier" = true →
      ∃ name, key.get? "name" = some (.str name)) {same : Bool}
    (h : sameName key.toTree value.toTree = .ok same) :
    same = true ↔ ∃ name, Names key name ∧ Names value name := by
  have his (n : Node) : n.kind.isText "Identifier" = n.is "Identifier" := rfl
  have hkind (n : Node) : n.toTree.kind = .ok n.kind := rfl
  simp only [sameName, hkind, ok_bind, his, Bool.not_eq_true', pure_ok] at h
  cases hki : key.is "Identifier" with
  | false =>
    obtain rfl : false = same := by simpa [hki] using h
    simp [Names, hki]
  | true =>
    cases hvi : value.is "Identifier" with
    | false =>
      obtain rfl : false = same := by simpa [hki, hvi] using h
      simp [Names, hvi]
    | true =>
      obtain ⟨name, hname⟩ := hk hki
      have hattr : key.toTree.attr "name" = .ok (.str name) := attr_eq_ok.2 hname
      rw [hattr] at h
      cases hv : value.toTree.attr "name" with
      | error e => simp [hki, hvi, hv] at h
      | ok u =>
        obtain rfl : (Tree.str name).equal u = same := by simpa [hki, hvi, hv] using h
        have hu : value.get? "name" = some u := attr_eq_ok.1 hv
        simp only [Names, hki, hvi, hname, hu, true_and, Option.some.injEq]
        constructor
        · intro he
          cases u <;> first | exact ⟨_, rfl, by rw [beq_iff_eq.1 he]⟩ | cases he
        · rintro ⟨other, ho, rfl⟩
          obtain rfl := Tree.str.inj ho
          exact beq_self_eq_true name

lemma names_identifierOf {name other : String} :
    Names (identifierOf name) other ↔ name = other := by
  simp [Names, identifierOf, Node.is, Node.get?, Entries.get?]

lemma Exported.keyedName {name other : String} {i j : Nat}
    (h : Exported 0 ⟨(identifier (.str name) i).1, (identifier (.str other) j).1, false⟩
      t) : KeyedName (identifierOf other) name (other == name) t := by
  obtain ⟨shorthand, hkeyed, hsame⟩ :=
    Exported.keyed (x := ⟨j, .str "Identifier", [("name", .str other)]⟩) h
  obtain rfl : (other == name) = shorthand := ok.inj hsame
  exact ⟨i, hkeyed⟩

end Rendering

section Records

variable {k j : Nat} {s s' : State}

lemma ExportsNames.records {xs : List Tree} {names : List String} (h : ExportsNames xs k s j s')
    (hx : Forall₂ (fun x name => ∃ n : Node, x = n.toTree ∧ Names n name) xs names) :
    ∃ records, s'.exports = s.exports ++ records ∧ ∀ ps, Forall₂ (Exported 0) records ps →
      Forall₂ (fun name => KeyedName (identifierOf name) name true) names ps := by
  induction h generalizing names with
  | nil =>
    cases hx
    refine ⟨[], by simp, fun ps hps => ?_⟩
    cases hps
    exact .nil
  | @cons x name xs k j s s' hname _ ih =>
    obtain ⟨text, rest, ⟨n, rfl, -, hn⟩, hrest, rfl⟩ := forall₂_cons_left_iff.1 hx
    obtain rfl : .str text = name := ok.inj ((attr_eq_ok.2 hn).symm.trans hname)
    obtain ⟨records, hrecords, hall⟩ := ih hrest
    refine ⟨_ :: records, by rw [hrecords, State.record, append_assoc]; rfl, fun ps hps => ?_⟩
    obtain ⟨t, ts, ht, hts, rfl⟩ := forall₂_cons_left_iff.1 hps
    refine .cons ?_ (hall ts hts)
    rw [← beq_self_eq_true text]
    exact ht.keyedName

def Reads (elements : List Tree) (specifiers : List Specifier) : Prop :=
  Forall₂ (fun x (c : Specifier) => x.attr "local" = .ok c.bound.toTree ∧
    x.attr "exported" = .ok c.exported.toTree) elements specifiers

lemma ExportsLocals.records {elements : List Tree} {specifiers : List Specifier}
    (h : ExportsLocals elements s s') (hr : Reads elements specifiers)
    (hf : ∀ c ∈ specifiers, Formed c.exported) :
    ∃ records, s'.exports = s.exports ++ records ∧ ∀ ps, Forall₂ (Exported 0) records ps →
      Forall₂ (fun c t => ∃ shorthand, Keyed c.exported c.bound.toTree shorthand t ∧
        (shorthand = true ↔ ∃ name, Names c.exported name ∧ Names c.bound name)) specifiers ps := by
  induction h generalizing specifiers with
  | nil =>
    cases hr
    refine ⟨[], by simp, fun ps hps => ?_⟩
    cases hps
    exact .nil
  | @cons x bound exported xs s s' hbound hexported _ ih =>
    obtain ⟨c, rest, ⟨hb, he⟩, hrest, rfl⟩ := forall₂_cons_left_iff.1 hr
    obtain rfl := ok.inj (hb.symm.trans hbound)
    obtain rfl := ok.inj (he.symm.trans hexported)
    obtain ⟨records, hrecords, hall⟩ := ih hrest fun c hc => hf c (by simp [hc])
    refine ⟨_ :: records, by rw [hrecords, State.record, append_assoc]; rfl, fun ps hps => ?_⟩
    obtain ⟨t, ts, ht, hts, rfl⟩ := forall₂_cons_left_iff.1 hps
    obtain ⟨shorthand, hkeyed, hsame⟩ := ht.keyed
    exact .cons ⟨shorthand, hkeyed, sameName_eq_ok (hf c (by simp)).name hsame⟩ (hall ts hts)

lemma PassesOn.records {elements bindings : List Tree} {specifiers : List Specifier}
    (h : PassesOn elements k s bindings j s') (hr : Reads elements specifiers)
    (hf : ∀ c ∈ specifiers, Formed c.exported)
    (ht : ∀ c ∈ specifiers, ∀ name, Names c.exported name → name ∈ s.names.taken) :
    s'.importFn = s.importFn ∧ ∃ records names, s'.exports = s.exports ++ records ∧
      (∀ source used, SetAside source used s → SetAside source (used ++ names) s') ∧
      ∀ ps, Forall₂ (Exported 0) records ps → Passed specifiers names bindings ps := by
  induction h generalizing specifiers with
  | nil =>
    cases hr
    refine ⟨rfl, [], [], by simp, fun _ _ hs => by rwa [append_nil], fun ps hps => ?_⟩
    cases hps
    exact .nil
  | @cons x bound exported xs bindings k j s s' hbound hexported _ ih =>
    obtain ⟨c, rest, ⟨hb, he⟩, hrest, rfl⟩ := forall₂_cons_left_iff.1 hr
    obtain rfl := ok.inj (hb.symm.trans hbound)
    obtain rfl := ok.inj (he.symm.trans hexported)
    have htaken : (s.use .temporary).2.names.taken = (s.use .temporary).1 :: s.names.taken :=
      s.names.taken_fresh State.temporaryBase
    obtain ⟨hfn, records, names, hrecords, haside, hall⟩ :=
      ih hrest (fun c hc => hf c (by simp [hc])) fun c hc name hn => by
        change name ∈ (s.use .temporary).2.names.taken
        rw [htaken]
        exact mem_cons_of_mem _ (ht c (by simp [hc]) name hn)
    refine ⟨hfn, _ :: records, (s.use .temporary).1 :: names,
      by rw [hrecords, State.record, append_assoc, exports_use]; rfl, fun source used hs => ?_,
      fun ps hps => ?_⟩
    · have := haside source (used ++ [(s.use .temporary).1]) (hs.temporary.congr rfl rfl)
      rwa [append_assoc] at this
    · obtain ⟨t, ts, hex, hts, rfl⟩ := forall₂_cons_left_iff.1 hps
      obtain ⟨shorthand, hkeyed, hsame⟩ := hex.keyed
      have hfresh : (s.use .temporary).1 ∉ s.names.taken :=
        s.names.fresh_free State.temporaryBase
      obtain rfl : shorthand = false := by
        rw [Bool.eq_false_iff]
        intro hshort
        obtain ⟨name, hkey, hvalue⟩ := (sameName_eq_ok (hf c (by simp)).name
          (show sameName _ (Node.toTree ⟨k + 2, _, [("name", _)]⟩) = _ from hsame)).1 hshort
        rw [← names_identifierOf.1 hvalue] at hkey
        exact hfresh (ht c (by simp) _ hkey)
      exact .cons ⟨k, c.bound.id, k + 1, rfl⟩ ⟨k + 2, hkeyed⟩ (hall ts hts)

end Records

end Overload.Lowering
