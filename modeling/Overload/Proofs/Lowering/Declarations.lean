import Overload.Proofs.Lowering.Rules

/-!
What the rules of imports and exports put into the place of a declaration and what they record.
-/

namespace Overload.Lowering

open Visit Build Prod Except

def State.record (s : State) (e : Export) : State := { s with exports := s.exports ++ [e] }

def calledImporter (k : Nat) (s : State) (source : Tree) : Tree :=
  let call := (Build.call (identifier (.str (s.use .importer).1) k).1 [source] (k + 1)).1
  if s.importIsAsync then (await call (k + 2)).1 else call

def importerEnd (k : Nat) (s : State) : Nat := if s.importIsAsync then k + 3 else k + 2

def constantOf (k : Nat) (id init : Tree) : Tree := (constant id init k).1

inductive Destructures : List Tree → Nat → List Tree → Nat → Prop
  | nil {k : Nat} : Destructures [] k [] k
  | default {x bound : Tree} {xs ps : List Tree} {k j : Nat} :
      x.kind = .ok (.str "ImportDefaultSpecifier") → x.attr "local" = .ok bound →
      Destructures xs (k + 2) ps j →
      Destructures (x :: xs) k
        ((plainProperty (literal (.str "default") k).1 bound (k + 1)).1 :: ps) j
  | named {x key bound : Tree} {xs ps : List Tree} {k j : Nat} :
      x.kind = .ok (.str "ImportSpecifier") → x.attr "imported" = .ok key →
      x.attr "local" = .ok bound → Destructures xs (k + 1) ps j →
      Destructures (x :: xs) k ((plainProperty key bound k).1 :: ps) j

inductive PassesOn : List Tree → Nat → State → List Tree → Nat → State → Prop
  | nil {k : Nat} {s : State} : PassesOn [] k s [] k s
  | cons {x bound exported : Tree} {xs ps : List Tree} {k j : Nat} {s s' : State} :
      x.attr "local" = .ok bound → x.attr "exported" = .ok exported →
      PassesOn xs (k + 3) ((s.use .temporary).2.record
        ⟨(identifier (.str (s.use .temporary).1) (k + 2)).1, exported, false⟩) ps j s' →
      PassesOn (x :: xs) k s ((plainProperty bound
        (identifier (.str (s.use .temporary).1) k).1 (k + 1)).1 :: ps) j s'

inductive ExportsNames : List Tree → Nat → State → Nat → State → Prop
  | nil {k : Nat} {s : State} : ExportsNames [] k s k s
  | cons {x name : Tree} {xs : List Tree} {k j : Nat} {s s' : State} : x.attr "name" = .ok name →
      ExportsNames xs (k + 2) (s.record
        ⟨(identifier name k).1, (identifier name (k + 1)).1, false⟩) j s' →
      ExportsNames (x :: xs) k s j s'

inductive ExportsLocals : List Tree → State → State → Prop
  | nil {s : State} : ExportsLocals [] s s
  | cons {x bound exported : Tree} {xs : List Tree} {s s' : State} : x.attr "local" = .ok bound →
      x.attr "exported" = .ok exported → ExportsLocals xs (s.record ⟨bound, exported, false⟩) s' →
      ExportsLocals (x :: xs) s s'

def specifierElements (specifiers : Tree) : Except Fault (List Tree) :=
  if specifiers.truthy then specifiers.elements else .ok []

inductive Declared (m : Node) (k : Nat) (s : State) : Tree → Nat → State → Prop
  | importAll {specifiers source only bound name : Tree} : m.is "ImportDeclaration" = true →
      m.get? "specifiers" = some specifiers → m.get? "source" = some source →
      namespaceSpecifier? specifiers = .ok (some only) → only.attr "local" = .ok bound →
      bound.attr "name" = .ok name →
      Declared m k s (constantOf (importerEnd k s + 1)
          (identifier name (importerEnd k s)).1 (calledImporter k s source))
        (importerEnd k s + 3) (s.use .importer).2
  | importNames {specifiers source : Tree} {elements ps : List Tree} {j : Nat} :
      m.is "ImportDeclaration" = true → m.get? "specifiers" = some specifiers →
      m.get? "source" = some source → specifiers.elements = .ok elements →
      Destructures elements (importerEnd k s) ps j →
      Declared m k s (constantOf (j + 1) (objectPattern ps j).1 (calledImporter k s source))
        (j + 3) (s.use .importer).2
  | exportFrom {specifiers source : Tree} {elements ps : List Tree} {j : Nat} {s' : State} :
      m.is "ExportNamedDeclaration" = true → m.get? "specifiers" = some specifiers →
      m.get? "source" = some source → source.isNull = false → specifiers.elements = .ok elements →
      PassesOn elements (importerEnd k s) (s.use .importer).2 ps j s' →
      s.options.returnsExports = true →
      Declared m k s (constantOf (j + 1) (objectPattern ps j).1 (calledImporter k s source))
        (j + 3) s'
  | exportDeclared {names : List Tree} {j : Nat} {s' : State} :
      m.is "ExportNamedDeclaration" = true → (m.get "source").isNull = true →
      (m.get "declaration").isNull = false → declaredNames (m.get "declaration") = .ok names →
      ExportsNames names k s j s' → s.options.returnsExports = true →
      Declared m k s (m.get "declaration") j s'
  | exportLocals {elements : List Tree} {s' : State} : m.is "ExportNamedDeclaration" = true →
      (m.get "source").isNull = true → (m.get "declaration").isNull = true →
      specifierElements (m.get "specifiers") = .ok elements → ExportsLocals elements s s' →
      s.options.returnsExports = true → Declared m k s (empty k).1 (k + 1) s'
  | exportDefaultName {declaration id kind name : Tree} :
      m.is "ExportDefaultDeclaration" = true → m.get? "declaration" = some declaration →
      declaration.get "id" = .ok id → declaration.kind = .ok kind →
      kind.among ["FunctionDeclaration", "ClassDeclaration"] = .ok true → id.isNull = false →
      id.attr "name" = .ok name → s.options.returnsExports = true →
      Declared m k s declaration (k + 2) (s.record
        ⟨(identifier name k).1, (identifier (.str "default") (k + 1)).1, false⟩)
  | exportDefaultValue {declaration id kind : Tree} {isNamed : Bool} :
      m.is "ExportDefaultDeclaration" = true → m.get? "declaration" = some declaration →
      declaration.get "id" = .ok id → declaration.kind = .ok kind →
      kind.among ["FunctionDeclaration", "ClassDeclaration"] = .ok isNamed →
      (isNamed = true → id.isNull = true) → s.options.returnsExports = true →
      Declared m k s (empty (k + 1)).1 (k + 2) (s.record
        ⟨declaration, (identifier (.str "default") k).1, false⟩)
  | exportAll {source : Tree} : m.is "ExportAllDeclaration" = true → m.get? "source" = some source →
      s.options.returnsExports = true →
      Declared m k s (empty (importerEnd k s)).1 (importerEnd k s + 1)
        ((s.use .importer).2.record
          ⟨calledImporter k s source, m.get "exported", (m.get "exported").isNull⟩)

def Replaces (c d : Context State) : Prop :=
  ∃ n k s, Declared c.site.node c.next c.state (Node.toTree n) k s ∧
    d = { c with next := k, state := s, site := d.site } ∧
    d.site.node = landed c.site.parent c.site.node n

variable {c d : Context State}

lemma replaces_of_replaceBy {t : Tree} {k : Nat} {s : State}
    (hr : Declared c.site.node c.next c.state t k s)
    (h : replaceBy t { c with next := k, state := s } = (.ok (), d)) : Replaces c d := by
  obtain ⟨n, rfl, hn, hd⟩ := replaceBy_eq_ok h
  exact ⟨n, k, s, hr, hd, hn⟩

lemma importerCall_eq (c : Context State) (source : Tree) : importerCall source c =
    (.ok (calledImporter c.next c.state source),
      { c with next := importerEnd c.next c.state, state := (c.state.use .importer).2 }) := by
  have hasync : (c.state.use .importer).2.importIsAsync = c.state.importIsAsync := by
    simp only [State.use, State.useImport]
    split <;> rfl
  change (if (c.state.use .importer).2.importIsAsync = true then _ else _ : Step Tree) _ = _
  rw [hasync, calledImporter, importerEnd]
  cases c.state.importIsAsync <;> rfl

lemma importCall_bind_eq_ok {α : Type} {source : Tree} {f : Tree → Step α} {y : α}
    (h : (importCall source >>= f) c = (.ok y, d)) :
    f (calledImporter c.next c.state source)
      { c with next := importerEnd c.next c.state, state := (c.state.use .importer).2 } =
        (.ok y, d) := by
  rw [importCall_eq] at h
  obtain ⟨call, e, hcall, h⟩ := bind_eq_ok.1 h
  obtain ⟨s, e', hs, hcalled⟩ := bind_eq_ok.1 hcall
  obtain ⟨-, rfl⟩ := mk.inj hs
  split at hcalled
  · obtain ⟨_, -, hthrow⟩ := lift_bind_eq_ok.1 hcalled
    cases congrArg fst hthrow
  · rw [importerCall_eq] at hcalled
    obtain ⟨hok, rfl⟩ := mk.inj hcalled
    obtain rfl := ok.inj hok
    exact h

lemma destructures_of_mapM {elements ps : List Tree}
    (h : elements.mapM importProperty c = (.ok ps, d)) :
    ∃ k, Destructures elements c.next ps k ∧ d = { c with next := k } := by
  induction elements generalizing c ps with
  | nil =>
    obtain ⟨hps, rfl⟩ := mk.inj h
    obtain rfl := ok.inj hps
    exact ⟨_, .nil, rfl⟩
  | cons x xs ih =>
    rw [List.mapM_cons] at h
    obtain ⟨property, e, hx, h⟩ := bind_eq_ok.1 h
    obtain ⟨rest, e', hxs, h⟩ := bind_eq_ok.1 h
    obtain ⟨hps, rfl⟩ := mk.inj h
    obtain rfl := ok.inj hps
    obtain ⟨k, hrest, rfl⟩ := ih hxs
    obtain ⟨kind, hkind, hx⟩ := lift_bind_eq_ok.1 hx
    split at hx
    · rw [build_bind] at hx
      obtain ⟨bound, hbound, hx⟩ := lift_bind_eq_ok.1 hx
      obtain ⟨hp, rfl⟩ := mk.inj hx
      obtain rfl := ok.inj hp
      exact ⟨k, .default hkind hbound hrest, rfl⟩
    · obtain ⟨key, hkey, hx⟩ := lift_bind_eq_ok.1 hx
      obtain ⟨bound, hbound, hx⟩ := lift_bind_eq_ok.1 hx
      obtain ⟨hp, rfl⟩ := mk.inj hx
      obtain rfl := ok.inj hp
      exact ⟨k, .named hkind hkey hbound hrest, rfl⟩
    · cases congrArg fst hx

lemma passesOn_of_mapM {elements ps : List Tree} (h : elements.mapM passOn c = (.ok ps, d)) :
    ∃ k s, PassesOn elements c.next c.state ps k s ∧ d = { c with next := k, state := s } := by
  induction elements generalizing c ps with
  | nil =>
    obtain ⟨hps, rfl⟩ := mk.inj h
    obtain rfl := ok.inj hps
    exact ⟨_, _, .nil, rfl⟩
  | cons x xs ih =>
    rw [List.mapM_cons] at h
    obtain ⟨property, e, hx, h⟩ := bind_eq_ok.1 h
    obtain ⟨rest, e', hxs, h⟩ := bind_eq_ok.1 h
    obtain ⟨hps, rfl⟩ := mk.inj h
    obtain rfl := ok.inj hps
    obtain ⟨k, s, hrest, rfl⟩ := ih hxs
    obtain ⟨bound, hbound, hx⟩ := lift_bind_eq_ok.1
      (show (lift (x.attr "local") >>= _) { c with state := (c.state.use .temporary).2 } = _ from hx)
    obtain ⟨exported, hexported, hx⟩ := lift_bind_eq_ok.1
      (show (lift (x.attr "exported") >>= _)
        { c with next := c.next + 3, state := (c.state.use .temporary).2 } = _ from hx)
    obtain ⟨hp, rfl⟩ := mk.inj hx
    obtain rfl := ok.inj hp
    exact ⟨k, s, .cons hbound hexported hrest, rfl⟩

lemma exportsNames_of_forM {names : List Tree} {u : PUnit} (h : (names.forM fun n => do
      let name ← lift (n.attr "name")
      exportName name name) c = (.ok u, d)) :
    ∃ k s, ExportsNames names c.next c.state k s ∧ d = { c with next := k, state := s } := by
  induction names generalizing c with
  | nil =>
    obtain ⟨-, rfl⟩ := mk.inj h
    exact ⟨_, _, .nil, rfl⟩
  | cons x xs ih =>
    obtain ⟨_, e, hx, hxs⟩ := bind_eq_ok.1 h
    obtain ⟨name, hname, hx⟩ := lift_bind_eq_ok.1 hx
    obtain ⟨-, rfl⟩ := mk.inj hx
    obtain ⟨k, s, hrest, rfl⟩ := ih hxs
    exact ⟨k, s, .cons hname hrest, rfl⟩

lemma exportsLocals_of_forM {elements : List Tree} {u : PUnit} (h : (elements.forM fun s => do
      let declaration ← lift (s.attr "local")
      recordExport ⟨declaration, ← lift (s.attr "exported"), false⟩) c = (.ok u, d)) :
    ∃ s, ExportsLocals elements c.state s ∧ d = { c with state := s } := by
  induction elements generalizing c with
  | nil =>
    obtain ⟨-, rfl⟩ := mk.inj h
    exact ⟨_, .nil, rfl⟩
  | cons x xs ih =>
    obtain ⟨_, e, hx, hxs⟩ := bind_eq_ok.1 h
    obtain ⟨bound, hbound, hx⟩ := lift_bind_eq_ok.1 hx
    obtain ⟨exported, hexported, hx⟩ := lift_bind_eq_ok.1 hx
    obtain ⟨-, rfl⟩ := mk.inj hx
    obtain ⟨s, hrest, rfl⟩ := ih hxs
    exact ⟨s, .cons hbound hexported hrest, rfl⟩

lemma requireExports_bind_eq_ok {α : Type} {f : Unit → Step α} {y : α}
    (h : (requireExports >>= f) c = (.ok y, d)) :
    c.state.options.returnsExports = true ∧ f () c = (.ok y, d) := by
  obtain ⟨_, e, hr, h⟩ := bind_eq_ok.1 h
  obtain ⟨s, e', hs, hr⟩ := bind_eq_ok.1 hr
  obtain ⟨hok, rfl⟩ := mk.inj hs
  obtain rfl := ok.inj hok
  split at hr
  · rename_i hreturns
    obtain ⟨-, rfl⟩ := mk.inj hr
    exact ⟨hreturns, h⟩
  · cases congrArg fst hr

lemma getNode_bind {α : Type} (f : Node → Step α) (c : Context State) :
    (getNode >>= f) c = f c.site.node c := rfl

lemma replaces_importRule (hm : c.site.node.is "ImportDeclaration" = true)
    (h : importRule c = (.ok (), d)) : Replaces c d := by
  rw [importRule_eq] at h
  obtain ⟨specifiers, hs, h⟩ := attr_bind_eq_ok.1 h
  split at h
  · obtain ⟨_, -, h⟩ := attr_bind_eq_ok.1 h
    obtain ⟨_, -, h⟩ := lift_bind_eq_ok.1 h
    cases congrArg fst h
  obtain ⟨source, hsource, h⟩ := attr_bind_eq_ok.1 h
  have h := importCall_bind_eq_ok h
  obtain ⟨only, honly, h⟩ := lift_bind_eq_ok.1 h
  split at h
  · obtain ⟨bound, hbound, h⟩ := lift_bind_eq_ok.1 h
    obtain ⟨name, hname, h⟩ := lift_bind_eq_ok.1 h
    exact replaces_of_replaceBy (.importAll hm hs hsource honly hbound hname) h
  · obtain ⟨elements, he, h⟩ := lift_bind_eq_ok.1 h
    obtain ⟨ps, e, hmapM, h⟩ := bind_eq_ok.1 h
    obtain ⟨k, hps, rfl⟩ := destructures_of_mapM hmapM
    exact replaces_of_replaceBy (.importNames hm hs hsource he hps) h

lemma replaces_exportNamedRule (hm : c.site.node.is "ExportNamedDeclaration" = true)
    (h : exportNamedRule c = (.ok (), d)) : Replaces c d := by
  obtain ⟨hreturns, h⟩ := requireExports_bind_eq_ok h
  rw [getNode_bind] at h
  split at h
  · rename_i hsource
    obtain ⟨source, hs, h⟩ := attr_bind_eq_ok.1 h
    have h := importCall_bind_eq_ok h
    obtain ⟨specifiers, hspecifiers, h⟩ := attr_bind_eq_ok.1 h
    obtain ⟨elements, he, h⟩ := lift_bind_eq_ok.1 h
    obtain ⟨ps, e, hmapM, h⟩ := bind_eq_ok.1 h
    obtain ⟨k, s, hps, rfl⟩ := passesOn_of_mapM hmapM
    have hnull : source.isNull = false := by simpa [Node.get, hs] using hsource
    exact replaces_of_replaceBy (.exportFrom hm hspecifiers hs hnull he hps hreturns) h
  · rename_i hsource
    split at h
    · rename_i hdeclaration
      obtain ⟨names, hnames, h⟩ := lift_bind_eq_ok.1 h
      obtain ⟨u, e, hforM, h⟩ := bind_eq_ok.1 h
      obtain ⟨k, s, hexports, rfl⟩ := exportsNames_of_forM hforM
      exact replaces_of_replaceBy (.exportDeclared hm (by simpa using hsource)
        (by simpa using hdeclaration) hnames hexports hreturns) h
    · rename_i hdeclaration
      obtain ⟨elements, he, h⟩ : ∃ elements,
          specifierElements (c.site.node.get "specifiers") = .ok elements ∧
          exportElements elements c = (.ok (), d) := by
        unfold exportSpecifiers at h
        unfold specifierElements
        split at h
        · rename_i ht
          obtain ⟨elements, he, h⟩ := lift_bind_eq_ok.1 h
          exact ⟨elements, by rw [if_pos ht, he], h⟩
        · rename_i ht
          exact ⟨[], by rw [if_neg ht], h⟩
      obtain ⟨u, e, hforM, h⟩ := bind_eq_ok.1 h
      obtain ⟨s, hexports, rfl⟩ := exportsLocals_of_forM hforM
      exact replaces_of_replaceBy (.exportLocals hm (by simpa using hsource)
        (by simpa using hdeclaration) he hexports hreturns) h

lemma replaces_exportDefaultRule (hm : c.site.node.is "ExportDefaultDeclaration" = true)
    (h : exportDefaultRule c = (.ok (), d)) : Replaces c d := by
  obtain ⟨hreturns, h⟩ := requireExports_bind_eq_ok h
  obtain ⟨declaration, hd, h⟩ := attr_bind_eq_ok.1 h
  obtain ⟨id, hid, h⟩ := lift_bind_eq_ok.1 h
  obtain ⟨kind, hkind, h⟩ := lift_bind_eq_ok.1 h
  obtain ⟨isNamed, hnamed, h⟩ := lift_bind_eq_ok.1 h
  split at h
  · rename_i hcond
    rw [Bool.and_eq_true] at hcond
    obtain ⟨rfl, hnull⟩ := hcond
    obtain ⟨name, hname, h⟩ := lift_bind_eq_ok.1 h
    exact replaces_of_replaceBy (.exportDefaultName hm hd hid hkind hnamed (by simpa using hnull)
      hname hreturns) h
  · rename_i hcond
    refine replaces_of_replaceBy (.exportDefaultValue hm hd hid hkind hnamed ?_ hreturns) h
    rintro rfl
    simpa using hcond

lemma replaces_exportAllRule (hm : c.site.node.is "ExportAllDeclaration" = true)
    (h : exportAllRule c = (.ok (), d)) : Replaces c d := by
  obtain ⟨hreturns, h⟩ := requireExports_bind_eq_ok h
  obtain ⟨source, hs, h⟩ := attr_bind_eq_ok.1 h
  have h := importCall_bind_eq_ok h
  obtain ⟨_, -, h⟩ := lift_bind_eq_ok.1 (show (lift (source.get "value") >>= _)
    { c with next := importerEnd c.next c.state,
             state := (c.state.use .importer).2.record ⟨calledImporter c.next c.state source,
               c.site.node.get "exported", (c.site.node.get "exported").isNull⟩ } = _ from h)
  exact replaces_of_replaceBy (.exportAll hm hs hreturns) h

end Overload.Lowering
