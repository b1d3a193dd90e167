import Overload.Proofs.Lowering.Interface
import Overload.Proofs.Semantics.Objects

/-! What imports bind. -/

namespace Overload.Lowering

open Visit Overload.Tree List Node

variable {k j : Nat} {ds : List Node} {t : Tree} {name : String}

inductive Share where
  | whole
  | member (key : String)

structure Binding where
  name : String
  share : Share

section Reading

def boundName? (t : Tree) : Option String := if t.is "Identifier" then t.keyName? else none

def propertyBinding? (t : Tree) : Option Binding := do
  let n ← t.node?
  guard (n.is "Property" && !(n.get "computed").truthy)
  return ⟨← boundName? (n.get "value"), .member (← (n.get "key").keyName?)⟩

def patternBindings? (t : Tree) : Option (List Binding) := do
  let n ← t.node?
  if n.is "Identifier" then return [⟨← boundName? t, .whole⟩]
  guard (n.is "ObjectPattern")
  match n.get "properties" with
  | .list properties => properties.mapM propertyBinding?
  | _ => none

def constantBindings? (t : Tree) : Option (List Binding × Tree) := do
  let n ← t.node?
  guard (n.is "VariableDeclaration" && (n.get "kind").isText "const")
  match n.get "declarations" with
  | .list [declarator] =>
    let d ← declarator.node?
    guard (d.is "VariableDeclarator")
    return (← patternBindings? (d.get "id"), d.get "init")
  | _ => none

lemma isName_of_keyName? {key : String} (h : t.keyName? = some key) :
    ∃ n : Node, t = n.toTree ∧ IsName n := by
  cases hn : t.node? with
  | none => simp [keyName?, hn] at h
  | some n =>
    refine ⟨n, (toTree_of_node? hn).symm, ?_⟩
    by_cases hi : n.is "Identifier" = true
    · exact ⟨_, by decide, hi⟩
    · by_cases hl : n.is "Literal" = true
      · exact ⟨_, by decide, hl⟩
      · simp [keyName?, hn, hi, hl] at h

lemma keyName?_of_boundName? (h : boundName? t = some name) : t.keyName? = some name := by
  by_cases hi : t.is "Identifier" = true
  · rwa [boundName?, if_pos hi] at h
  · rw [boundName?, if_neg hi] at h
    cases h

lemma names_of_boundName? {n : Node} (h : boundName? n.toTree = some name) :
    n.get? "name" = some (.str name) := by
  by_cases hi : n.toTree.is "Identifier" = true
  · rw [boundName?, if_pos hi] at h
    have hi : n.is "Identifier" = true := hi
    cases hname : n.get? "name" with
    | none => simp [keyName?, node?_toTree, hi, hname] at h
    | some t =>
      simp only [keyName?, node?_toTree, hi, hname, if_true, Option.bind_eq_bind,
        Option.bind_some] at h
      split at h
      · rw [Option.some.inj h]
      · cases h
  · rw [boundName?, if_neg hi] at h
    cases h

lemma propertyBinding?_plainProperty {bound key : Tree} {text : String}
    (hname : boundName? bound = some name) (hkey : key.keyName? = some text) :
    propertyBinding? (plainProperty key bound k).1 = some ⟨name, .member text⟩ := by
  have hread : propertyBinding? (plainProperty key bound k).1 =
      (boundName? bound).bind fun name => key.keyName?.bind fun text =>
        some ⟨name, .member text⟩ := rfl
  rw [hread, hname, hkey]
  rfl

lemma constantBindings?_constantOf {id init : Tree} {bindings : List Binding}
    (h : patternBindings? id = some bindings) :
    constantBindings? (constantOf k id init) = some (bindings, init) := by
  have hread : constantBindings? (constantOf k id init) =
      (patternBindings? id).bind fun bindings => some (bindings, init) := rfl
  rw [hread, h]
  rfl

end Reading

inductive SpecifierBinds (c : Node) : Binding → Prop
  | default {name : String} : c.is "ImportDefaultSpecifier" = true →
      boundName? (c.get "local") = some name → SpecifierBinds c ⟨name, .member "default"⟩
  | named {name key : String} : c.is "ImportSpecifier" = true →
      boundName? (c.get "local") = some name → (c.get "imported").keyName? = some key →
      SpecifierBinds c ⟨name, .member key⟩
  | space {name : String} : c.is "ImportNamespaceSpecifier" = true →
      boundName? (c.get "local") = some name → SpecifierBinds c ⟨name, .whole⟩

inductive ImportForm : List Node → Prop
  | space {c : Node} : c.is "ImportNamespaceSpecifier" = true → ImportForm [c]
  | names {cs : List Node} : cs ≠ [] → (∀ c ∈ cs, c.is "ImportSpecifier" = true) → ImportForm cs
  | default {c : Node} {cs : List Node} : c.is "ImportDefaultSpecifier" = true →
      (∀ c ∈ cs, c.is "ImportSpecifier" = true) → ImportForm (c :: cs)
  | both {c d : Node} : c.is "ImportDefaultSpecifier" = true →
      d.is "ImportNamespaceSpecifier" = true → ImportForm [c, d]

structure ImportsFrom (n source : Node) (bindings : List Binding) : Prop where
  kind : n.is "ImportDeclaration" = true
  specifiers : ∃ cs, Specified n cs ∧ ImportForm cs ∧ Forall₂ SpecifierBinds cs bindings
  literal : source.is "Literal" = true
  source : n.get? "source" = some source.toTree

def Combines (n : Node) : Prop :=
  ∃ c d, Specified n [c, d] ∧ c.is "ImportDefaultSpecifier" = true ∧
    d.is "ImportNamespaceSpecifier" = true

variable {options : Options} {n m c d source : Node} {p q : Progress State} {b : Binding}
  {bindings : List Binding}

section Forms

lemma ImportsFrom.importable_iff (h : ImportsFrom n source bindings) {cs : List Node}
    (hs : Specified n cs) : Importable cs ↔ ¬Combines n := by
  obtain ⟨cs', hs', hform, -⟩ := h.specifiers
  obtain rfl := hs.unique hs'
  constructor
  · rintro himportable ⟨c, d, hboth, -, hd⟩
    obtain rfl := hs.unique hboth
    cases himportable with
    | names _ hall =>
      obtain ⟨kind, hmem, hk⟩ := hall d (by simp)
      exact is_outside hmem hk hd (by decide)
  · intro hno
    cases hform with
    | space hc => exact .all hc
    | names hne hall => exact .names hne fun c hc => ⟨_, by decide, hall c hc⟩
    | default hc hall =>
      refine .names (by simp) fun c' hc' => ?_
      rcases mem_cons.1 hc' with rfl | hc'
      · exact ⟨_, by decide, hc⟩
      · exact ⟨_, by decide, hall c' hc'⟩
    | both hc hd => exact absurd ⟨_, _, hs, hc, hd⟩ hno

lemma ImportsFrom.admissible_iff (h : ImportsFrom n source bindings) (hi : options.importer ≠ none) :
    Admissible options n ↔ ¬Combines n := by
  obtain ⟨cs, hs, -, -⟩ := h.specifiers
  rw [← h.importable_iff hs]
  refine ⟨fun ha => ?_, admissible_import h.kind hi hs⟩
  obtain ⟨cs', hs', himportable⟩ := ha.specifiers h.kind
  exact hs.unique hs' ▸ himportable

end Forms

section Lowered

lemma get_of_keyName? (hr : Renewed Lowers n p m q) (k : Kind) (hk : n.is k.name = true)
    {key text : String} (hkey : key ∈ k.children) (h : (n.get key).keyName? = some text) :
    m.get key = n.get key := by
  obtain ⟨c, hc, kind, hmem, hkind⟩ := isName_of_keyName? h
  have hget := lowered_name hr k hk hkey hmem hkind (get?_of_get hc (by rintro ⟨⟩))
  rw [hc, Node.get, hget]
  rfl

lemma SpecifierBinds.lowered (h : SpecifierBinds c b) (hd : Lowers c p d q) :
    SpecifierBinds d b := by
  cases h with
  | default hk hname =>
    obtain ⟨r, hr, hdk⟩ := hd.renewed_of_kind .importDefaultSpecifier hk (by decide)
    have hlocal := get_of_keyName? hr .importDefaultSpecifier hk (by decide)
      (keyName?_of_boundName? hname)
    exact .default hdk (hlocal ▸ hname)
  | named hk hname hkey =>
    obtain ⟨r, hr, hdk⟩ := hd.renewed_of_kind .importSpecifier hk (by decide)
    have hlocal := get_of_keyName? hr .importSpecifier hk (by decide) (keyName?_of_boundName? hname)
    have himported := get_of_keyName? hr .importSpecifier hk (by decide) hkey
    exact .named hdk (hlocal ▸ hname) (himported ▸ hkey)
  | space hk hname =>
    obtain ⟨r, hr, hdk⟩ := hd.renewed_of_kind .importNamespaceSpecifier hk (by decide)
    have hlocal := get_of_keyName? hr .importNamespaceSpecifier hk (by decide)
      (keyName?_of_boundName? hname)
    exact .space hdk (hlocal ▸ hname)

lemma specifiers_lowered {cs : List Node} (hr : Renewed Lowers n p m q)
    (hk : n.is "ImportDeclaration" = true) (hs : Specified n cs)
    (hb : Forall₂ SpecifierBinds cs bindings) :
    ∃ ds, Specified m ds ∧ Forall₂ SpecifierBinds ds bindings := by
  obtain ⟨ds, hds, hall⟩ := hr.list carries_lowers
    (childKeys_of_kind .importDeclaration (is_iff.1 hk)) (by decide) hs
  refine ⟨ds, hds, ?_⟩
  clear hs hds
  induction hb generalizing ds with
  | nil =>
    cases hall
    exact .nil
  | cons hc _ ih =>
    obtain ⟨d, rest, ⟨_, _, hd, -⟩, hrest, rfl⟩ := forall₂_cons_left_iff.1 hall
    exact .cons (hc.lowered hd) (ih rest hrest)

lemma Destructures.binds {ps : List Tree} (h : Destructures (ds.map toTree) k ps j)
    (hb : Forall₂ SpecifierBinds ds bindings) : ps.mapM propertyBinding? = some bindings := by
  induction hb generalizing k ps with
  | nil =>
    cases h
    rfl
  | @cons d b ds bs hd _ ih =>
    have hattr {key : String} {t : Tree} (h : d.toTree.attr key = .ok t) : d.get key = t := by
      rw [Node.get, attr_eq_ok.1 h]
      rfl
    rw [map_cons] at h
    cases h with
    | default hkind hbound hrest =>
      have hdk : d.is "ImportDefaultSpecifier" = true := is_iff.2 (Except.ok.inj hkind)
      cases hd with
      | default _ hname =>
        have hkey : (Build.literal (.str "default") k).1.keyName? = some "default" := rfl
        rw [mapM_cons, propertyBinding?_plainProperty (hattr hbound ▸ hname) hkey, ih hrest]
        rfl
      | named ho | space ho => exact (is_unique hdk ho (by decide)).elim
    | named hkind hkey hbound hrest =>
      have hdk : d.is "ImportSpecifier" = true := is_iff.2 (Except.ok.inj hkind)
      cases hd with
      | named _ hname hkeyed =>
        rw [mapM_cons,
          propertyBinding?_plainProperty (hattr hbound ▸ hname) (hattr hkey ▸ hkeyed), ih hrest]
        rfl
      | default ho | space ho => exact (is_unique hdk ho (by decide)).elim

lemma namespaceSpecifier?_only {only : Tree}
    (h : namespaceSpecifier? (.list (ds.map toTree)) = .ok (some only)) :
    ∃ d, ds = [d] ∧ only = d.toTree ∧ d.is "ImportNamespaceSpecifier" = true := by
  by_cases hlen : ds.length = 1
  · obtain ⟨d, rfl⟩ := length_eq_one_iff.1 hlen
    rw [map_singleton, namespaceSpecifier?_single] at h
    by_cases hd : d.is "ImportNamespaceSpecifier" = true
    · rw [if_pos hd] at h
      exact ⟨d, rfl, (Option.some.inj (Except.ok.inj h)).symm, hd⟩
    · rw [if_neg hd] at h
      cases h
  · rw [namespaceSpecifier?_many (by simpa using hlen)] at h
    cases h

lemma Declared.binds {s s' : State} (h : Declared m k s t j s')
    (hk : m.is "ImportDeclaration" = true) (hs : Specified m ds)
    (hb : Forall₂ SpecifierBinds ds bindings)
    (hsource : m.get? "source" = some source.toTree) :
    constantBindings? t = some (bindings, calledImporter k s source.toTree) ∧
      s' = (s.use .importer).2 := by
  cases h with
  | importAll _ hspecifiers hsource' honly hbound hname =>
    obtain rfl := Option.some.inj (hsource.symm.trans hsource')
    obtain rfl := Option.some.inj (hs.symm.trans hspecifiers)
    obtain ⟨d, rfl, rfl, hd⟩ := namespaceSpecifier?_only honly
    obtain ⟨b, rest, hdb, hnil, rfl⟩ := forall₂_cons_left_iff.1 hb
    cases hnil
    cases hdb with
    | space _ hnames =>
      rw [Node.get, attr_eq_ok.1 hbound, Option.getD_some] at hnames
      obtain ⟨c, rfl, -⟩ := isName_of_keyName? (keyName?_of_boundName? hnames)
      obtain rfl := Option.some.inj ((names_of_boundName? hnames).symm.trans (attr_eq_ok.1 hname))
      exact ⟨constantBindings?_constantOf rfl, rfl⟩
    | default ho | named ho => exact (is_unique hd ho (by decide)).elim
  | importNames _ hspecifiers hsource' helements hps =>
    obtain rfl := Option.some.inj (hsource.symm.trans hsource')
    obtain rfl := Option.some.inj (hs.symm.trans hspecifiers)
    obtain rfl := Except.ok.inj helements
    exact ⟨constantBindings?_constantOf (hps.binds hb), rfl⟩
  | exportFrom ho | exportDeclared ho | exportLocals ho | exportDefaultName ho
  | exportDefaultValue ho | exportAll ho => exact (is_unique hk ho (by decide)).elim

lemma ImportsFrom.lowered {final : Progress State} (h : ImportsFrom n source bindings)
    (hm : Lowers n p m q) (hawaits : Awaits p) (hfinal : Extends q final) :
    ∃ init, constantBindings? m.toTree = some (bindings, init) ∧
      ImportCall final.state source init := by
  obtain ⟨m', r, hr, hstepped, hrq⟩ := hm.step
  have hk : m'.is "ImportDeclaration" = true := (hr.is _).trans h.kind
  obtain ⟨k, s, hdeclared, rfl⟩ := hstepped.declared (by decide) hk
  obtain ⟨cs, hs, -, hb⟩ := h.specifiers
  obtain ⟨ds, hds, hdb⟩ := specifiers_lowered hr h.kind hs hb
  have hsource := lowered_name hr .importDeclaration h.kind (by decide)
    (show "Literal" ∈ nameKinds by decide) h.literal h.source
  obtain ⟨hbindings, rfl⟩ := hdeclared.binds hk hds hdb hsource
  refine ⟨_, hbindings, importCall_final r.next
    (lowered_keeps closed_awaits notes_awaits hr hawaits) (hfinal.options.trans hrq.options) ?_⟩
  exact hfinal.importFn _ r.state.importFn_useImport

end Lowered

lemma run_succeeds_iff {root : Node} (hl : Lawful root) (hc : CompleteBelow root)
    (hk : root.is "Program" = true) (hcustom : options.customRules = []) (next : Nat) :
    (∃ s, (run options root.toTree next).outcome = .ok s) ↔
      ∀ n, Below root n → Admissible options n := by
  obtain ⟨start, hstart⟩ := hc.ofTree hl options
  obtain ⟨ho, he, -⟩ := ofTree_eq_ok hstart
  have hfit : Fit options ⟨next, [], start⟩ := ⟨ho, by simp [DoneExports, he]⟩
  have hverdict := visit_program hl hc hk hfit (by simp [AllReturnable, he])
  rw [run_eq hcustom hl hstart]
  generalize visit builtinRules root ⟨none, "", none⟩ ⟨next, [], start⟩ = v at hverdict ⊢
  obtain ⟨outcome, m, q⟩ := v
  cases hverdict with
  | accepted hall => exact iff_of_true ⟨q.state, rfl⟩ fun n hb => hall n (mem_postorder.2 hb)
  | rejected before after hsplit _ hn =>
    refine iff_of_false ?_ fun hall => hn.not_admissible (hall _ (mem_postorder.1 (by simp [hsplit])))
    rintro ⟨s, ⟨⟩⟩

lemma forall₂_getElem? {α β : Type} {R : α → β → Prop} {xs : List α} {ys : List β} {i : Nat} {x : α}
    (h : Forall₂ R xs ys) (hx : xs[i]? = some x) : ∃ y, ys[i]? = some y ∧ R x y := by
  induction h generalizing i with
  | nil => simp at hx
  | cons hxy _ ih =>
    cases i with
    | zero =>
      obtain rfl := Option.some.inj hx
      exact ⟨_, rfl, hxy⟩
    | succ i => exact ih hx

lemma Closes.statements {s : State} {block : Node} (h : Closes m k s block j)
    (hm : m.get? "body" = some (.list (ds.map toTree))) :
    ∃ items, block.get? "body" = some (.list items) ∧
      ∀ (i : Nat) (d : Node), ds[i]? = some d → items[i]? = some d.toTree := by
  have hitem (i : Nat) (d : Node) (hi : ds[i]? = some d) :
      (ds.map toTree)[i]? = some d.toTree := by simp [hi]
  cases h with
  | plain => exact ⟨_, get?_of_get (by rw [get_asBlock, Node.get, hm]; rfl) (by simp), hitem⟩
  | @exports body t _ _ hbody =>
    obtain rfl : ds.map toTree = body := by simpa [hm] using hbody
    refine ⟨_, get?_of_get (get_appended ..) (by simp), fun i d hi => ?_⟩
    have hi := hitem i d hi
    rw [getElem?_append_left (List.getElem?_eq_some_iff.1 hi).1, hi]

/-- A program in which all imports have an allowed form is lowered just if none of them combines a
default with a namespace, and everything else is admissible. Each of its imports has become a
constant that binds exactly the declared names, in their order, each to what its specifier stands
for, and that takes apart a call of the importer for the source. -/
theorem imports_bind_locals_unless_combined (d : Json) (k : Nat) {root : Node}
    (hroot : (Tree.ofData d k).1 = root.toTree) (hk : root.is "Program" = true)
    (hc : CompleteBelow root) {bs : List Node}
    (hbody : root.get? "body" = some (.list (bs.map Node.toTree)))
    (himports : ∀ n, Below root n → n.is "ImportDeclaration" = true →
      ∃ source bindings, ImportsFrom n source bindings)
    (options : Options) (hcustom : options.customRules = []) (hi : options.importer ≠ none)
    (next : Nat) :
    ((∃ s, (run options root.toTree next).outcome = .ok s) ↔ ∀ n, Below root n →
      if n.is "ImportDeclaration" = true then ¬Combines n else Admissible options n) ∧
    ∀ s, (run options root.toTree next).outcome = .ok s → ∃ block items,
      (run options root.toTree next).tree = Node.toTree block ∧
      block.get? "body" = some (.list items) ∧
      ∀ (i : Nat) n source bindings, bs[i]? = some n → ImportsFrom n source bindings → ∃ new init,
        items[i]? = some new ∧ constantBindings? new = some (bindings, init) ∧
        ImportCall s source init := by
  have hl := d.lawful hroot
  have hadmissible : (∀ n, Below root n → Admissible options n) ↔ ∀ n, Below root n →
      if n.is "ImportDeclaration" = true then ¬Combines n else Admissible options n := by
    refine forall₂_congr fun n hn => ?_
    by_cases himport : n.is "ImportDeclaration" = true
    · obtain ⟨source, bindings, h⟩ := himports n hn himport
      rw [if_pos himport, h.admissible_iff hi]
    · rw [if_neg himport]
  refine ⟨?_, fun s h => ?_⟩
  · rw [← hadmissible]
    exact run_succeeds_iff hl hc hk hcustom next
  · obtain ⟨start, block, q, hs, hv, rfl, hrun⟩ := run_eq_ok hcustom hl h
    obtain ⟨m, r, hr, hstepped, hfinal⟩ := lowered_step hl hv
    have hcarries : Carries Lowers fun p q => Extends p q ∧ (Awaits p → Awaits q) :=
      ⟨fun p => ⟨.refl p, id⟩, fun h h' => ⟨h.1.trans h'.1, fun ha => h'.2 (h.2 ha)⟩,
        fun h => ⟨h.extends, h.keeps closed_awaits notes_awaits⟩⟩
    obtain ⟨ds, hds, hall⟩ := hr.list hcarries
      (childKeys_of_kind .program (is_iff.1 hk)) (by decide) hbody
    obtain ⟨j, hcloses, rfl⟩ := hstepped.closes rfl (by rwa [Node.is, hr.kind])
    obtain ⟨items, hitems, hplaces⟩ := hcloses.statements hds
    refine ⟨block, items, by rw [hrun], hitems, fun i n source bindings hn himport => ?_⟩
    obtain ⟨d, hd, a, b, hlowers, hpa, hbr⟩ := forall₂_getElem? hall hn
    obtain ⟨init, hbindings, hcall⟩ :=
      himport.lowered hlowers (hpa.2 (awaits_ofTree hs)) (hbr.1.trans hfinal)
    exact ⟨d.toTree, init, hplaces i d hd, hbindings, hcall⟩

section Programs

def identified (s : String) : Data := .object [("type", .str "Identifier"), ("name", .str s)]

def defaultSpecifier (s : String) : Data :=
  .object [("type", .str "ImportDefaultSpecifier"), ("local", identified s)]

def namespaceSpecifier (s : String) : Data :=
  .object [("type", .str "ImportNamespaceSpecifier"), ("local", identified s)]

def namedSpecifier (imported : Data) (s : String) : Data :=
  .object [("type", .str "ImportSpecifier"), ("imported", imported), ("local", identified s)]

def importing (imports : List (List Data)) : Data :=
  .object [("type", .str "Program"), ("body", .list (imports.map fun specifiers =>
    .object [("type", .str "ImportDeclaration"), ("specifiers", .list specifiers),
      ("source", literally "m")]))]

def separate : Data :=
  importing [[defaultSpecifier "d", namedSpecifier (identified "a") "a",
    namedSpecifier (literally "b c") "e"], [namespaceSpecifier "ns"]]

def separateRoot : Node := ((ofData separate 0).1.node?).getD ⟨0, .null, []⟩

def separateImport (i : Nat) : Node :=
  ((partNodes (separateRoot.get "body"))[i]?).getD separateRoot

def separateBindings : List (List Binding) :=
  [[⟨"d", .member "default"⟩, ⟨"a", .member "a"⟩, ⟨"e", .member "b c"⟩], [⟨"ns", .whole⟩]]

lemma separate_importsFrom : ∀ b ∈ separateBindings.zipIdx,
    ImportsFrom (separateImport b.2) (childOf (separateImport b.2) "source") b.1 := by
  simp only [separateBindings, zipIdx_cons, zipIdx_nil, forall_mem_cons]
  refine ⟨⟨rfl, ⟨partNodes ((separateImport 0).get "specifiers"), rfl, .default rfl ?_,
    .cons ?_ (.cons ?_ (.cons ?_ .nil))⟩, rfl, rfl⟩,
    ⟨rfl, ⟨partNodes ((separateImport 1).get "specifiers"), rfl, .space rfl, .cons ?_ .nil⟩, rfl, rfl⟩,
    by simp⟩
  · decide +kernel
  · exact .default rfl rfl
  · exact .named rfl rfl rfl
  · exact .named rfl rfl rfl
  · exact .space rfl rfl

lemma separate_import {n : Node} (hn : Below separateRoot n) (hk : n.is "ImportDeclaration" = true) :
    ∃ b ∈ separateBindings.zipIdx, n = separateImport b.2 := by
  have hplain : ∀ b ∈ separateBindings.zipIdx, ∀ s ∈ slots (separateImport b.2),
      Every (fun k => k.is "ImportDeclaration" = false) s.child.toTree := by decide +kernel
  have hslots : slots separateRoot =
    [⟨"body", some 0, separateImport 0⟩, ⟨"body", some 1, separateImport 1⟩] := rfl
  rcases below_iff.1 hn with rfl | ⟨s, hs, hb⟩
  · cases hk
  · obtain ⟨b, hb', hchild⟩ : ∃ b ∈ separateBindings.zipIdx, s.child = separateImport b.2 := by
      rw [hslots] at hs
      rcases mem_pair.1 hs with rfl | rfl
      · exact ⟨_, mem_cons_self, rfl⟩
      · exact ⟨_, mem_cons_of_mem _ mem_cons_self, rfl⟩
    rcases below_iff.1 hb with rfl | ⟨s', hs', hbelow⟩
    · exact ⟨b, hb', hchild⟩
    · rw [hchild] at hs'
      rw [(hplain b hb' s' hs').reaches ⟨s'.child, rfl, hbelow⟩] at hk
      cases hk

theorem imports_bind_locals_unless_combined_separate : ∃ s block items,
    (run { Options.default with importer := some .coroutine } separateRoot.toTree 20).outcome =
      .ok s ∧
    (run { Options.default with importer := some .coroutine } separateRoot.toTree 20).tree =
      toTree block ∧
    block.get? "body" = some (.list items) ∧ ∀ b ∈ separateBindings.zipIdx, ∃ new init,
      items[b.2]? = some new ∧ constantBindings? new = some (b.1, init) ∧
      ImportCall s (childOf (separateImport b.2) "source") init := by
  have hcomplete : Every Complete (ofData separate 0).1 := by decide +kernel
  have hroot : (ofData separate 0).1 = separateRoot.toTree := rfl
  have hbody : separateRoot.get? "body" =
      some (.list ([separateImport 0, separateImport 1].map toTree)) := rfl
  have himports (n : Node) (hn : Below separateRoot n) (hk : n.is "ImportDeclaration" = true) :
      ∃ source bindings, ImportsFrom n source bindings := by
    obtain ⟨b, hb, rfl⟩ := separate_import hn hk
    exact ⟨_, _, separate_importsFrom b hb⟩
  obtain ⟨-, hbound⟩ := imports_bind_locals_unless_combined ⟨separate, by decide +kernel⟩ 0 hroot rfl
    (fun n hb => hcomplete.reaches ⟨_, hroot, hb⟩) hbody himports
    { Options.default with importer := some .coroutine } rfl (by simp) 20
  have hok : (run { Options.default with importer := some .coroutine } separateRoot.toTree
      20).outcome.toOption.isSome = true := by decide +kernel
  cases hs : (run { Options.default with importer := some .coroutine } separateRoot.toTree
      20).outcome with
  | error e => simp [hs, Except.toOption] at hok
  | ok s =>
    obtain ⟨block, items, hblock, hitems, hall⟩ := hbound s hs
    refine ⟨s, block, items, rfl, hblock, hitems, fun b hb => hall b.2 _ _ _ ?_
      (separate_importsFrom b hb)⟩
    rcases mem_pair.1 hb with rfl | rfl <;> rfl

def combined : Data := importing [[defaultSpecifier "d", namespaceSpecifier "ns"]]

def combinedRoot : Node := ((ofData combined 0).1.node?).getD ⟨0, .null, []⟩

def combinedImport : Node := ((partNodes (combinedRoot.get "body"))[0]?).getD combinedRoot

theorem combined_import_is_refused : (Tree.ofData combined 0).1 = combinedRoot.toTree ∧
    Below combinedRoot combinedImport ∧ Tree.Every Complete combinedRoot.toTree ∧
    ImportsFrom combinedImport (childOf combinedImport "source")
      [⟨"d", .member "default"⟩, ⟨"ns", .whole⟩] ∧
    ∃ fault, (run { Options.default with importer := some .function } combinedRoot.toTree
        20).outcome = .error fault ∧
      fault.message? = some "Unknown import specifier: ImportNamespaceSpecifier" := by
  have hslot : ⟨"body", some 0, combinedImport⟩ ∈ slots combinedRoot :=
    slot_of_item (childKeys_of_kind .program rfl) (by decide) rfl rfl
  have hmessage : ((run { Options.default with importer := some .function } combinedRoot.toTree
      20).outcome.mapError Fault.message?).map (fun _ => ()) =
      .error (some "Unknown import specifier: ImportNamespaceSpecifier") := by decide +kernel
  refine ⟨rfl, .child .refl hslot, by decide +kernel, ⟨rfl,
    ⟨partNodes (combinedImport.get "specifiers"), rfl, .both rfl rfl, .cons ?_ (.cons ?_ .nil)⟩, rfl,
    rfl⟩, ?_⟩
  · exact .default rfl rfl
  · exact .space rfl rfl
  · cases hs : (run { Options.default with importer := some .function } combinedRoot.toTree
        20).outcome with
    | ok s => simp [hs, Except.mapError, Except.map] at hmessage
    | error fault => exact ⟨fault, rfl, by simpa [hs, Except.mapError, Except.map] using hmessage⟩

end Programs

end Overload.Lowering
