import Overload.Proofs.Lowering.Admission
import Overload.Proofs.Lowering.Outcomes

/-! What module declarations have to satisfy. -/

namespace Overload.Lowering

open Visit Node List Goes

variable {cs ds : List Node}

def Imports (n : Node) : Prop :=
  n.is "ImportDeclaration" = true ∨ n.is "ExportAllDeclaration" = true ∨
    n.is "ExportNamedDeclaration" = true ∧ (n.get "source").isNull = false

def Exports (n : Node) : Prop := ∃ kind ∈ exportKinds, n.is kind = true

def importedKinds : List String := ["ImportDefaultSpecifier", "ImportSpecifier"]

inductive Importable : List Node → Prop
  | all {c : Node} : c.is "ImportNamespaceSpecifier" = true → Importable [c]
  | names {cs : List Node} : cs ≠ [] → (∀ c ∈ cs, ∃ kind ∈ importedKinds, c.is kind = true) →
      Importable cs

def Specified (n : Node) (cs : List Node) : Prop :=
  n.get? "specifiers" = some (.list (cs.map toTree))

/-- What a declaration has to satisfy; nodes of other kinds have to satisfy nothing. -/
structure Admissible (options : Options) (n : Node) : Prop where
  mode : Exports n → options.returnsExports = true
  importer : Imports n → options.importer ≠ none
  specifiers : n.is "ImportDeclaration" = true → ∃ cs, Specified n cs ∧ Importable cs
  declared : n.is "ExportNamedDeclaration" = true → (n.get "source").isNull = true →
    ∀ d : Node, n.get? "declaration" = some d.toTree → Declaring d

inductive Offends (options : Options) (n : Node) : Fault → Prop
  | empty {source : Tree} : n.is "ImportDeclaration" = true → Specified n [] →
      Offends options n (.emptyImport source)
  | mode : Exports n → options.returnsExports = false →
      Offends options n (.exportsDisallowed options.returns)
  | importer {source : Tree} : Imports n → (Exports n → options.returnsExports = true) →
      (n.is "ImportDeclaration" = true → ¬Specified n []) → options.importer = none →
      Offends options n (.importerMissing source)
  | specifier {cs : List Node} {kind : Tree} : n.is "ImportDeclaration" = true → Specified n cs →
      cs ≠ [] → options.importer ≠ none → ¬Importable cs →
      Offends options n (.unknownSpecifier kind)
  | declared {d : Node} {fault : Fault} : n.is "ExportNamedDeclaration" = true →
      options.returnsExports = true → (n.get "source").isNull = true →
      n.get? "declaration" = some d.toTree → ¬Declaring d → NotDeclaration d fault →
      Offends options n fault

variable {options : Options} {n m : Node} {p q : Progress State}

lemma Specified.unique (h : Specified n cs) (h' : Specified n ds) : cs = ds := by
  have := Option.some.inj (h.symm.trans h')
  simp only [Tree.list.injEq] at this
  exact map_injective_iff.2 (fun _ _ => toTree_injective) this

lemma not_exports (hk : n.is "ImportDeclaration" = true) : ¬Exports n := by
  rintro ⟨kind, hmem, h⟩
  exact is_outside hmem h hk (by decide)

lemma Offends.not_admissible {fault : Fault} (h : Offends options n fault) : ¬Admissible options n := by
  intro ha
  cases h with
  | empty hk hs =>
    obtain ⟨cs, hcs, hi⟩ := ha.specifiers hk
    obtain rfl := hs.unique hcs
    cases hi with
    | names hne => exact hne rfl
  | mode he hno => exact absurd ((ha.mode he).symm.trans hno) (by decide)
  | importer hi _ _ hno => exact ha.importer hi hno
  | specifier hk hs _ _ hno =>
    obtain ⟨cs, hcs, hi⟩ := ha.specifiers hk
    exact hno (hs.unique hcs ▸ hi)
  | declared hk _ hs hd hno => exact hno (ha.declared hk hs _ hd)

def blamesOptions : Fault → Bool
  | .exportsDisallowed _ | .importerMissing _ => true
  | _ => false

lemma Offends.blamesOptions_iff {fault : Fault} (h : Offends options n fault) :
    blamesOptions fault = true ↔ Exports n ∧ options.returnsExports = false ∨
      Imports n ∧ options.importer = none ∧ (n.is "ImportDeclaration" = true → ¬Specified n []) := by
  cases h with
  | empty hk hs =>
    refine iff_of_false Bool.false_ne_true ?_
    rintro (⟨he, -⟩ | ⟨-, -, hno⟩)
    · exact not_exports hk he
    · exact hno hk hs
  | mode he hno => exact iff_of_true rfl (.inl ⟨he, hno⟩)
  | importer hi _ hs hno => exact iff_of_true rfl (.inr ⟨hi, hno, hs⟩)
  | specifier hk _ _ hi =>
    refine iff_of_false Bool.false_ne_true ?_
    rintro (⟨he, -⟩ | ⟨-, hno, -⟩)
    · exact not_exports hk he
    · exact hi hno
  | declared hk hmode hs _ _ hfault =>
    have hother : blamesOptions fault = false := by
      cases hfault <;> rfl
    rw [hother]
    refine iff_of_false Bool.false_ne_true ?_
    rintro (⟨-, hno⟩ | ⟨hi, -, -⟩)
    · cases hmode.symm.trans hno
    · rcases hi with hi | hi | ⟨-, hno⟩
      · exact is_unique hi hk (by decide)
      · exact is_unique hi hk (by decide)
      · cases hs.symm.trans hno

lemma admissible_of_plain (h : ∀ kind ∈ moduleKinds, n.is kind = false) : Admissible options n := by
  have hno {kind : String} (hk : n.is kind = true) (hmem : kind ∈ moduleKinds) : False := by
    rw [h kind hmem] at hk
    cases hk
  refine ⟨fun ⟨kind, hmem, hk⟩ => ?_, fun hi => ?_, fun hk => ?_, fun hk => ?_⟩
  · have hall : ∀ kind ∈ exportKinds, kind ∈ moduleKinds := by decide
    exact (hno hk (hall kind hmem)).elim
  · rcases hi with hk | hk | ⟨hk, -⟩
    · exact (hno hk (by decide)).elim
    · exact (hno hk (by decide)).elim
    · exact (hno hk (by decide)).elim
  · exact (hno hk (by decide)).elim
  · exact (hno hk (by decide)).elim

lemma admissible_import (hk : n.is "ImportDeclaration" = true) (hi : options.importer ≠ none)
    (hs : Specified n cs) (hcs : Importable cs) : Admissible options n :=
  ⟨fun he => absurd he (not_exports hk), fun _ => hi, fun _ => ⟨cs, hs, hcs⟩,
    fun h => (is_unique h hk (by decide)).elim⟩

lemma admissible_export (he : Exports n) (hm : options.returnsExports = true)
    (hi : Imports n → options.importer ≠ none)
    (hd : n.is "ExportNamedDeclaration" = true → (n.get "source").isNull = true →
      ∀ d : Node, n.get? "declaration" = some d.toTree → Declaring d) : Admissible options n :=
  ⟨fun _ => hm, hi, fun hk => absurd he (not_exports hk), hd⟩

lemma Ends.mono {rule : Step Unit} {P Q : Prop} {E : Fault → Prop} (h : Ends options m rule P E)
    (hPQ : P → Q) : Ends options m rule Q E :=
  fun c hc => (h c hc).imp_left fun ⟨d, hd, hp⟩ => ⟨d, hd, hPQ hp⟩

def keptSpecifiers : List String := "ImportNamespaceSpecifier" :: "ExportSpecifier" :: importedKinds

lemma Lowers.is_iff {kind : String} (h : Lowers n p m q) (hmem : kind ∈ keptSpecifiers) :
    m.is kind = true ↔ n.is kind = true := by
  have hall : ∀ kind ∈ keptSpecifiers, kind ∉ resultKinds ∧
      ∃ K : Kind, K.name = kind ∧ kind ∉ dissolved := by
    simp only [keptSpecifiers, importedKinds, forall_mem_cons]
    exact ⟨⟨by decide, .importNamespaceSpecifier, rfl, by decide⟩,
      ⟨by decide, .exportSpecifier, rfl, by decide⟩,
      ⟨by decide, .importDefaultSpecifier, rfl, by decide⟩,
      ⟨by decide, .importSpecifier, rfl, by decide⟩, by simp⟩
  obtain ⟨hnot, K, rfl, hstays⟩ := hall kind hmem
  refine ⟨fun hm => (h.renewed_of_result hm hnot).1, fun hn => ?_⟩
  obtain ⟨q', -, hm⟩ := h.renewed_of_kind K hn hstays
  exact hm

lemma Lowers.field (h : Lowers n p m q) (hc : Complete n) (K : Kind) (key : String)
    (hK : K.name ∈ keptSpecifiers) (hreq : ⟨K, key, .node⟩ ∈ requirements)
    (hm : m.is K.name = true) : ∃ c : Node, m.get? key = some c.toTree := by
  have hall : ∀ kind ∈ keptSpecifiers, kind ∉ resultKinds := by decide
  obtain ⟨hn, q', hr⟩ := h.renewed_of_result hm (hall _ hK)
  exact fits_node (fits_renewed hr .node (hc.filled _ hreq hn))

section Imports

variable {E : Fault → Prop} {d : Node}

lemma goes_importProperty (h : Lowers n p d q) (hc : Complete n)
    (hE : (∀ kind ∈ importedKinds, n.is kind = false) → E (.unknownSpecifier d.kind)) :
    Goes options m (importProperty d.toTree) (fun _ => ∃ kind ∈ importedKinds, n.is kind = true)
      E := by
  have his {kind : String} (hmem : kind ∈ keptSpecifiers) (hk : d.kind = .str kind) :
      n.is kind = true := (h.is_iff hmem).1 (is_iff.2 hk)
  refine (Goes.lift (show d.toTree.kind = .ok d.kind from rfl)).bind ?_
  rintro _ rfl
  split
  · rename_i hk
    obtain ⟨c, hlocal⟩ := h.field hc .importDefaultSpecifier "local" (by decide) (by decide)
      (is_iff.2 hk)
    refine (made _).bind fun _ _ => (Goes.lift (attr_eq_ok.2 hlocal)).bind fun _ _ => ?_
    exact .build fun _ => ⟨_, by decide, his (by decide) hk⟩
  · rename_i hk
    obtain ⟨c, hlocal⟩ := h.field hc .importSpecifier "local" (by decide) (by decide)
      (is_iff.2 hk)
    obtain ⟨c', himported⟩ := h.field hc .importSpecifier "imported" (by decide) (by decide)
      (is_iff.2 hk)
    refine (Goes.lift (attr_eq_ok.2 himported)).bind fun _ _ => ?_
    refine (Goes.lift (attr_eq_ok.2 hlocal)).bind fun _ _ => ?_
    exact .build fun _ => ⟨_, by decide, his (by decide) hk⟩
  · rename_i hdefault hnamed
    refine .throw (hE fun kind hmem => ?_)
    by_contra hk
    have hall : ∀ kind ∈ importedKinds, kind ∈ keptSpecifiers := by decide
    have hd := is_iff.1 ((h.is_iff (hall kind hmem)).2 (by simpa using hk))
    rcases mem_pair.1 hmem with rfl | rfl
    · exact hdefault hd
    · exact hnamed hd

lemma namespaceSpecifier?_single (x : Node) : namespaceSpecifier? (.list [x.toTree]) =
    .ok (if x.is "ImportNamespaceSpecifier" then some x.toTree else none) := by
  have hkind : x.toTree.kind = .ok x.kind := rfl
  have htext : x.kind.isText "ImportNamespaceSpecifier" = x.is "ImportNamespaceSpecifier" := rfl
  simp [namespaceSpecifier?, Tree.length, Tree.elements, Tree.index, Tree.at?, hkind, htext]

lemma namespaceSpecifier?_many {xs : List Tree} (h : xs.length ≠ 1) :
    namespaceSpecifier? (.list xs) = .ok none := by
  simp [namespaceSpecifier?, Tree.length, Tree.elements, h]

lemma namespace_name {c : Node} (h : Lowers c p d q) (hc : CompleteBelow c)
    (hk : c.is "ImportNamespaceSpecifier" = true) :
    ∃ (bound : Node) (name : String), d.get? "local" = some bound.toTree ∧
      bound.get? "name" = some (.str name) := by
  obtain ⟨x, hx⟩ := fits_node (hc.self.filled ⟨.importNamespaceSpecifier, "local", .node⟩
    (by decide) hk)
  have hshape := hc.self.formed.shape ⟨.importNamespaceSpecifier, "local", ["Identifier"]⟩
    (by simp [shapes]) hk
  rw [Node.get, hx] at hshape
  have hi : x.is "Identifier" = true := by simpa using parts_toTree.1 hshape
  obtain ⟨q', hr, -⟩ := h.renewed_of_kind .importNamespaceSpecifier hk (by decide)
  have hs := slot_of_get? (childKeys_of_kind .importNamespaceSpecifier (is_iff.1 hk))
    (show "local" ∈ _ by decide) hx
  obtain ⟨name, hname⟩ := (hc.child hs).self.formed.name hi
  exact ⟨x, name, lowered_name hr .importNamespaceSpecifier hk (by decide) (by decide) hi hx, hname⟩

def Became (cs ds : List Node) : Prop :=
  Forall₂ (fun c d => CompleteBelow c ∧ ∃ a b, Lowers c a d b) cs ds

lemma goes_importProperties {cs ds : List Node} (h : Became cs ds)
    (hE : ∀ c ∈ cs, (∀ kind ∈ importedKinds, c.is kind = false) →
      ∀ kind, E (.unknownSpecifier kind)) :
    Goes options m ((ds.map toTree).mapM importProperty)
      (fun _ => ∀ c ∈ cs, ∃ kind ∈ importedKinds, c.is kind = true) E := by
  induction h with
  | nil => exact .pure (by simp)
  | cons hcd _ ih =>
    obtain ⟨hc, a, b, hl⟩ := hcd
    rw [map_cons, mapM_cons]
    refine (goes_importProperty hl hc.self fun hno => hE _ (by simp) hno _).bind fun _ hfirst => ?_
    refine (ih fun c hmem => hE c (by simp [hmem])).bind fun _ hrest => .pure ?_
    exact forall_mem_cons.2 ⟨hfirst, hrest⟩

lemma Importable.not_of_single {c : Node} (hn : c.is "ImportNamespaceSpecifier" = false)
    (hk : ∀ kind ∈ importedKinds, c.is kind = false) (hc : c ∈ cs) : ¬Importable cs := by
  rintro (⟨hall⟩ | ⟨-, hall⟩)
  · rw [mem_singleton.1 hc, hall] at hn
    cases hn
  · obtain ⟨kind, hmem, h⟩ := hall c hc
    rw [hk kind hmem] at h
    cases h

lemma ends_importDeclared (call : Tree) (h : Became cs ds) (hne : cs ≠ [])
    (hE : ¬Importable cs → ∀ kind, E (.unknownSpecifier kind)) :
    Ends options m (importDeclared (.list (ds.map toTree)) call) (Importable cs) E := by
  have hmany (hno : namespaceSpecifier? (.list (ds.map toTree)) = .ok none)
      (hfault : ∀ c ∈ cs, (∀ kind ∈ importedKinds, c.is kind = false) → ¬Importable cs) :
      Ends options m (importDeclared (.list (ds.map toTree)) call) (Importable cs) E := by
    refine .lift hno ?_
    refine .lift (show Tree.elements (.list _) = .ok _ from rfl) ?_
    refine (goes_importProperties h fun c hc hkinds => hE (hfault c hc hkinds)).ends fun _ hall => ?_
    exact .placed (fun _ => rfl) (.names hne hall)
  cases h with
  | nil => exact absurd rfl hne
  | @cons c d cs ds hcd hrest =>
    obtain ⟨hc, a, b, hl⟩ := hcd
    cases hrest with
    | nil =>
      have hspec := namespaceSpecifier?_single d
      cases hk : c.is "ImportNamespaceSpecifier" with
      | true =>
        rw [(hl.is_iff (by decide)).2 hk] at hspec
        obtain ⟨bound, name, hlocal, hname⟩ := namespace_name hl hc hk
        refine .lift hspec ?_
        refine .lift (attr_eq_ok.2 hlocal) ?_
        refine .lift (attr_eq_ok.2 hname) ?_
        exact .placed (fun _ => rfl) (.all hk)
      | false =>
        have hd : d.is "ImportNamespaceSpecifier" = false := by
          by_contra hd
          rw [(hl.is_iff (by decide)).1 (by simpa using hd)] at hk
          cases hk
        rw [hd] at hspec
        refine hmany hspec fun c' hc' hkinds => ?_
        obtain rfl := mem_singleton.1 hc'
        exact Importable.not_of_single hk hkinds hc'
    | cons hcd' hrest =>
      refine hmany (namespaceSpecifier?_many (by simp)) fun c' hc' hkinds himportable => ?_
      cases himportable with
      | names _ hall =>
        obtain ⟨kind, hmem, hk⟩ := hall c' hc'
        rw [hkinds kind hmem] at hk
        cases hk

lemma ends_importRule (hc : CompleteBelow n) (hr : Renewed Lowers n p m q)
    (hk : n.is "ImportDeclaration" = true) :
    Ends options m importRule (Admissible options n) (Offends options n) := by
  obtain ⟨cs, ds, hcs, hds, hall⟩ := hc.items hr .importDeclaration hk "specifiers" (by decide)
    (by decide)
  have hmk : m.is "ImportDeclaration" = true := by rwa [is, hr.kind]
  obtain ⟨source, hsource⟩ := fits_node
    (hc.self.filled.renewed hr ⟨.importDeclaration, "source", .node⟩ (by decide) hmk)
  rw [importRule_eq]
  refine .attr hds ?_
  cases hall with
  | nil =>
    refine .ite (fun _ => ?_) fun hno => absurd rfl hno
    refine .attr hsource ?_
    refine .lift (show source.toTree.get "value" = .ok _ from rfl) ?_
    exact .throw (.empty hk hcs)
  | @cons c d cs ds hcd hrest =>
    refine .ite (fun hno => absurd hno (by simp [Tree.truthy])) fun _ => ?_
    have hsome : ¬Specified n [] := fun hs => by cases hs.unique hcs
    refine .attr hsource ?_
    refine (goes_importCall source fun hno _ => ?_).ends fun call hi => ?_
    · exact .importer (.inl hk) (fun he => absurd he (not_exports hk)) (fun _ => hsome) hno
    · refine (ends_importDeclared call (.cons hcd hrest) (by simp) fun hno kind => ?_).mono
        (admissible_import hk hi hcs)
      exact .specifier hk hcs (by simp) hi hno

end Imports

section Exports

variable {E : Fault → Prop} {d : Node}

lemma specifier_fields (h : Became cs ds) (hk : ∀ c ∈ cs, c.is "ExportSpecifier" = true) :
    ∀ t ∈ ds.map toTree, ∃ (d bound exported : Node), t = d.toTree ∧
      d.get? "local" = some bound.toTree ∧ d.get? "exported" = some exported.toTree := by
  intro t ht
  obtain ⟨d, hd, rfl⟩ := mem_map.1 ht
  obtain ⟨c, hmem, hc, a, b, hl⟩ := exists_of_forall₂ h hd
  have hdk := (hl.is_iff (by decide)).2 (hk c hmem)
  obtain ⟨bound, hbound⟩ := hl.field hc.self .exportSpecifier "local" (by decide) (by decide) hdk
  obtain ⟨exported, hexported⟩ :=
    hl.field hc.self .exportSpecifier "exported" (by decide) (by decide) hdk
  exact ⟨d, bound, exported, rfl, hbound, hexported⟩

lemma export_specifiers (hc : CompleteBelow n) (hr : Renewed Lowers n p m q)
    (hk : n.is "ExportNamedDeclaration" = true) : ∃ ts, m.get? "specifiers" = some (.list ts) ∧
      ∀ t ∈ ts, ∃ (d bound exported : Node), t = d.toTree ∧
        d.get? "local" = some bound.toTree ∧ d.get? "exported" = some exported.toTree := by
  obtain ⟨cs, ds, hcs, hds, hall⟩ := hc.items hr .exportNamedDeclaration hk "specifiers" (by decide)
    (by decide)
  have hshape := hc.self.formed.shape ⟨.exportNamedDeclaration, "specifiers", ["ExportSpecifier"]⟩
    (by simp [shapes]) hk
  rw [Node.get, hcs] at hshape
  exact ⟨_, hds, specifier_fields hall fun c hmem => by simpa using parts_nodes.1 hshape c hmem⟩

lemma goes_passOn {bound exported : Node} (hbound : d.get? "local" = some bound.toTree)
    (hexported : d.get? "exported" = some exported.toTree) :
    Goes options m (passOn d.toTree) (fun _ => True) E := by
  refine (use _).bind fun _ _ => (Goes.lift (attr_eq_ok.2 hbound)).bind fun _ _ => ?_
  refine (made _).bind fun _ _ => (made _).bind fun _ _ => ?_
  refine (Goes.lift (attr_eq_ok.2 hexported)).bind fun _ _ => (record _).bind fun _ _ => ?_
  exact .pure trivial

lemma goes_exportName (name key : Tree) : Goes options m (exportName name key) (fun _ => True) E :=
  (made _).bind fun _ _ => (made _).bind fun _ _ => record _

lemma ends_exportFrom (hc : CompleteBelow n) (hr : Renewed Lowers n p m q)
    (hk : n.is "ExportNamedDeclaration" = true) (hs : (m.get "source").isNull = false)
    (hE : options.importer = none → ∀ value, E (.importerMissing value)) :
    Ends options m exportFrom (options.importer ≠ none) E := by
  have hmk : m.is "ExportNamedDeclaration" = true := by rwa [is, hr.kind]
  obtain ⟨ts, hts, hfields⟩ := export_specifiers hc hr hk
  rcases fits_optional (hc.self.filled.renewed hr ⟨.exportNamedDeclaration, "source", .optional⟩
    (by decide) hmk) with hnull | ⟨source, hsource⟩
  · rw [hnull] at hs
    cases hs
  refine .attr hsource ?_
  refine (goes_importCall source hE).ends fun _ hi => .attr hts ?_
  refine .lift (show Tree.elements (.list ts) = .ok ts from rfl) ?_
  refine (Goes.mapM (R := fun _ => True) fun t ht => ?_).ends fun _ _ => ?_
  · obtain ⟨d, bound, exported, rfl, hbound, hexported⟩ := hfields t ht
    exact goes_passOn hbound hexported
  · exact .placed (fun _ => rfl) hi

lemma ends_exportElements {ts : List Tree} (h : ∀ t ∈ ts, ∃ (d bound exported : Node), t = d.toTree ∧
    d.get? "local" = some bound.toTree ∧ d.get? "exported" = some exported.toTree) :
    Ends options m (exportElements ts) True E := by
  refine (forM fun t ht => ?_).ends fun _ _ => ?_
  · obtain ⟨d, bound, exported, rfl, hbound, hexported⟩ := h t ht
    refine (Goes.lift (attr_eq_ok.2 hbound)).bind fun _ _ => ?_
    exact (Goes.lift (attr_eq_ok.2 hexported)).bind fun _ _ => record _
  · exact .placed (fun _ => rfl) trivial

lemma ends_exportSpecifiers (hc : CompleteBelow n) (hr : Renewed Lowers n p m q)
    (hk : n.is "ExportNamedDeclaration" = true) :
    Ends options m (exportSpecifiers (m.get "specifiers")) True E := by
  obtain ⟨ts, hts, hfields⟩ := export_specifiers hc hr hk
  rw [Node.get, hts]
  change Ends options m (if (Tree.list ts).truthy = true then
    (Visit.lift (Tree.elements (.list ts)) >>= exportElements) else
    (Pure.pure [] >>= exportElements)) True E
  refine .ite (fun _ => ?_) fun _ => ?_
  · refine .lift (show Tree.elements (.list ts) = .ok ts from rfl) ?_
    exact ends_exportElements hfields
  · exact (Goes.pure (Q := (· = [])) rfl).ends fun _ h => h ▸ ends_exportElements (by simp)

lemma ends_exportDeclared {d : Node} {P : Prop} {O : Fault → Prop}
    (h : Finds P O (declaredNames d.toTree)) (hE : ∀ fault, ¬P → O fault → E fault) :
    Ends options m (do
      (← lift (declaredNames d.toTree)).forM fun n => do
        let name ← lift (n.attr "name")
        exportName name name
      replaceBy d.toTree) P E := by
  rcases h with ⟨hP, xs, hxs, hnames⟩ | ⟨hP, fault, hfault, hO⟩
  · refine .lift hxs ?_
    refine (forM fun x hx => ?_).ends fun _ _ => .replaceBy rfl hP
    obtain ⟨name, hname⟩ := hnames x hx
    exact (Goes.lift hname).bind fun _ _ => goes_exportName _ _
  · exact (fail (Q := fun _ => False) hfault (hE fault hP hO)).ends fun _ h => h.elim

lemma ends_exportNamedRule (hc : CompleteBelow n) (hr : Renewed Lowers n p m q)
    (hk : n.is "ExportNamedDeclaration" = true) :
    Ends options m exportNamedRule (Admissible options n) (Offends options n) := by
  have he : Exports n := ⟨_, by decide, hk⟩
  have hnull := isNull_renewed hr
  have hplain (hs : (n.get "source").isNull = true) (hi : Imports n) : options.importer ≠ none := by
    rcases hi with hi | hi | ⟨-, hno⟩
    · exact (is_unique hi hk (by decide)).elim
    · exact (is_unique hi hk (by decide)).elim
    · cases hs.symm.trans hno
  refine (goes_requireExports fun hno => .mode he hno).ends fun _ hmode => Goes.getNode.ends ?_
  intro m' hm'
  subst m'
  simp only [hnull, Bool.not_eq_true']
  refine .ite (fun hs => ?_) fun hs => .ite (fun hd => ?_) fun hd => ?_
  · refine (ends_exportFrom hc hr hk (hnull "source" ▸ hs) fun hno _ => ?_).mono fun hi => ?_
    · refine .importer (.inr (.inr ⟨hk, hs⟩)) (fun _ => hmode) (fun hi => ?_) hno
      exact absurd he (not_exports hi)
    · refine admissible_export he hmode (fun _ => hi) fun _ hno => ?_
      cases hs.symm.trans hno
  · have hs : (n.get "source").isNull = true := by simpa using hs
    rcases fits_optional (hc.self.filled ⟨.exportNamedDeclaration, "declaration", .optional⟩
      (by decide) hk) with hno | ⟨c, hget⟩
    · rw [hno] at hd
      cases hd
    obtain ⟨d, hget', hcc, -, a, b, hl⟩ :=
      inner_lowered hr hc .exportNamedDeclaration hk (by decide) hget
    have hnamed := hc.self.named hk
    rw [Node.get, hget] at hnamed
    have hfound := declared_lowered hl hcc (parts_toTree.1 hnamed)
    rw [Node.get, hget']
    refine (ends_exportDeclared hfound fun fault hno hfault => ?_).mono fun hdeclaring => ?_
    · exact .declared hk hmode hs hget hno hfault
    · refine admissible_export he hmode (hplain hs) fun _ _ c' hc' => ?_
      exact toTree_injective (Option.some.inj (hget.symm.trans hc')) ▸ hdeclaring
  · have hs : (n.get "source").isNull = true := by simpa using hs
    refine (ends_exportSpecifiers hc hr hk).mono fun _ => ?_
    refine admissible_export he hmode (hplain hs) fun _ _ c hget => ?_
    rw [Node.get, hget] at hd
    exact absurd rfl hd

lemma ends_exportDefaultRule (hc : CompleteBelow n) (hr : Renewed Lowers n p m q)
    (hk : n.is "ExportDefaultDeclaration" = true) :
    Ends options m exportDefaultRule (Admissible options n) (Offends options n) := by
  have he : Exports n := ⟨_, by decide, hk⟩
  obtain ⟨c, hget⟩ := fits_node
    (hc.self.filled ⟨.exportDefaultDeclaration, "declaration", .node⟩ (by decide) hk)
  obtain ⟨d, hget', hcc, -, a, b, hl⟩ :=
    inner_lowered hr hc .exportDefaultDeclaration hk (by decide) hget
  obtain ⟨kind, hkind⟩ := hl.kind_text hcc.self.text
  refine (goes_requireExports fun hno => .mode he hno).ends fun _ hmode => ?_
  have hadmissible : Admissible options n := by
    refine admissible_export he hmode (fun hi => ?_) fun hno => (is_unique hk hno (by decide)).elim
    rcases hi with hi | hi | ⟨hi, -⟩ <;> exact (is_unique hk hi (by decide)).elim
  refine .attr hget' ?_
  refine .lift (show d.toTree.get "id" = .ok (d.get "id") from rfl) ?_
  refine .lift (show d.toTree.kind = .ok d.kind from rfl) ?_
  rw [hkind]
  refine .lift (among_text kind _) ?_
  refine .ite (fun hnamed => ?_) fun _ => ?_
  · obtain ⟨hmem, hid⟩ := by simpa only [Bool.and_eq_true, contains_iff_mem] using hnamed
    rcases titled_lowered hl hcc with ⟨-, -, -, -, id, name, hid', hname⟩ | ⟨-, hnone⟩
    · rw [Node.get, hid']
      refine .lift (attr_eq_ok.2 hname) ?_
      exact (goes_exportName _ _).ends fun _ _ => .replaceBy rfl hadmissible
    · rw [hnone ⟨kind, hmem, is_iff.2 hkind⟩] at hid
      cases hid
  · refine .made fun _ => .record ?_
    exact .placed (fun _ => rfl) hadmissible

lemma ends_exportAllRule (hc : CompleteBelow n) (hr : Renewed Lowers n p m q)
    (hk : n.is "ExportAllDeclaration" = true) :
    Ends options m exportAllRule (Admissible options n) (Offends options n) := by
  have he : Exports n := ⟨_, by decide, hk⟩
  have hmk : m.is "ExportAllDeclaration" = true := by rwa [is, hr.kind]
  obtain ⟨source, hsource⟩ := fits_node
    (hc.self.filled.renewed hr ⟨.exportAllDeclaration, "source", .node⟩ (by decide) hmk)
  refine (goes_requireExports fun hno => .mode he hno).ends fun _ hmode => ?_
  refine .attr hsource ?_
  refine (goes_importCall source fun hno _ => ?_).ends fun _ hi => ?_
  · exact .importer (.inr (.inl hk)) (fun _ => hmode) (fun hk' => absurd he (not_exports hk')) hno
  · refine Goes.getNode.ends fun _ _ => .record ?_
    refine .lift (show source.toTree.get "value" = .ok _ from rfl) ?_
    refine .placed (fun _ => rfl) ?_
    exact admissible_export he hmode (fun _ => hi) fun hno => (is_unique hk hno (by decide)).elim

end Exports

end Overload.Lowering
