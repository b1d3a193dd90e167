import Overload.Proofs.Lowering.Keeping

/-! What survives a lowering. -/

namespace Overload.Lowering

open Visit Node

def moduleShapes : List Shape :=
  [⟨.importDeclaration, "specifiers",
      ["ImportSpecifier", "ImportDefaultSpecifier", "ImportNamespaceSpecifier"]⟩,
    ⟨.importDeclaration, "source", ["Literal"]⟩, ⟨.importSpecifier, "imported", nameKinds⟩,
    ⟨.importSpecifier, "local", ["Identifier"]⟩, ⟨.importDefaultSpecifier, "local", ["Identifier"]⟩,
    ⟨.exportNamedDeclaration, "source", ["Literal"]⟩,
    ⟨.exportNamedDeclaration, "declaration",
      ["VariableDeclaration", "FunctionDeclaration", "ClassDeclaration"]⟩,
    ⟨.exportSpecifier, "local", nameKinds⟩, ⟨.exportSpecifier, "exported", nameKinds⟩,
    ⟨.exportAllDeclaration, "source", ["Literal"]⟩, ⟨.exportAllDeclaration, "exported", nameKinds⟩]

structure Grammatical (n : Node) : Prop where
  formed : Formed n
  shape : ∀ shape ∈ moduleShapes, shape.Holds n
  operand : ∀ e ∈ operands, n.is e.1 = true → ∀ key ∈ e.2, (n.get key).isNode = true
  either : n.is "ExportNamedDeclaration" = true →
    (n.get "source").isNull = true ∨ (n.get "declaration").isNull = true

instance : DecidablePred Grammatical := fun n =>
  decidable_of_iff (Formed n ∧ (∀ shape ∈ moduleShapes, shape.Holds n) ∧
    (∀ e ∈ operands, n.is e.1 = true → ∀ key ∈ e.2, (n.get key).isNode = true) ∧
    (n.is "ExportNamedDeclaration" = true →
      (n.get "source").isNull = true ∨ (n.get "declaration").isNull = true))
    ⟨fun ⟨h₁, h₂, h₃, h₄⟩ => ⟨h₁, h₂, h₃, h₄⟩, fun ⟨h₁, h₂, h₃, h₄⟩ => ⟨h₁, h₂, h₃, h₄⟩⟩

def sturdyKinds : List String :=
  ["CallExpression", "AwaitExpression", "ForOfStatement", "VariableDeclaration"]

def Sturdy (n : Node) : Prop := ∃ kind ∈ sturdyKinds, n.is kind = true

lemma not_sturdy {n : Node} {kind : String} (hk : n.is kind = true) (h : kind ∉ sturdyKinds) :
    ¬Sturdy n := by
  rintro ⟨other, hmem, ho⟩
  exact is_unique hk ho fun he => h (he ▸ hmem)

def Shelved (s : State) (y : Node) : Prop :=
  s.options.returnsExports = true ∧ ∃ e ∈ s.exports, ∃ c : Node, e.declaration = c.toTree ∧ Below c y

def Stands (m : Node) (s : State) (y : Node) : Prop := Below m y ∨ Shelved s y

variable {n m m' y : Node} {p q q' : Progress State}

lemma Shelved.mono (h : Shelved p.state y) (he : Extends p q) : Shelved q.state y := by
  obtain ⟨hreturns, e, hmem, hc⟩ := h
  exact ⟨by rw [he.options, hreturns], e, he.exports.subset hmem, hc⟩

lemma Path.below {ups : List Node} (h : Path n y ups) : Below n y := by
  induction h with
  | here => exact .refl
  | step hs _ ih => exact .head hs ih

lemma Wraps.below {k : Nat} {c : Node} (h : Wraps k n c) : Below n c := by
  obtain ⟨ups, hp, -⟩ := h
  exact Path.below hp

section Dropped

lemma below_name {kind : String} (hmem : kind ∈ nameKinds) (hk : n.is kind = true)
    (h : Below n y) : y = n := by
  have hleaf (K : Kind) (hk : n.is K.name = true) (hc : K.children = []) : y = n := by
    rcases below_iff.1 h with rfl | ⟨s, hs, -⟩
    · rfl
    · rw [slots_of_childKeys (childKeys_of_kind K (is_iff.1 hk)), hc] at hs
      simp [slotsOf] at hs
  rcases List.mem_pair.1 hmem with rfl | rfl
  · exact hleaf .identifier hk rfl
  · exact hleaf .literal hk rfl

lemma Lowers.frail_name (h : Lowers n p m q) {kind : String} (hmem : kind ∈ nameKinds)
    (hk : n.is kind = true) (hy : Below m y) : ¬Sturdy y := by
  have hall : ∀ kind ∈ nameKinds, kind ∉ sturdyKinds := by decide
  obtain rfl := h.eq_of_name hmem hk
  obtain rfl := below_name hmem hk hy
  exact not_sturdy hk (hall kind hmem)

def specifierKinds : List Kind :=
  [.importSpecifier, .importDefaultSpecifier, .importNamespaceSpecifier, .exportSpecifier]

lemma Grammatical.holds (hg : Grammatical n) {shape : Shape}
    (hmem : shape ∈ shapes ++ moduleShapes) : shape.Holds n :=
  (List.mem_append.1 hmem).elim (hg.formed.shape shape) (hg.shape shape)

lemma Grammatical.parts (hg : Grammatical n) {shape : Shape} (hmem : shape ∈ shapes ++ moduleShapes)
    (hk : n.is shape.kind.name = true) {s : Visit.Slot} (hs : s ∈ slots n) (hkey : s.key = shape.key) :
    ∃ kind ∈ shape.kinds, s.child.is kind = true :=
  hg.holds hmem hk s.child (hkey ▸ part_of_slot hs)

lemma Lowers.frail_specifier (h : Lowers n p m q) (hg : Grammatical n) {K : Kind}
    (hK : K ∈ specifierKinds) (hk : n.is K.name = true) (hy : Below m y) : ¬Sturdy y := by
  have hkinds : ∀ K ∈ specifierKinds, K.name ∉ dissolved ∧ K.name ∉ sturdyKinds := by decide
  have hshapes : ∀ K ∈ specifierKinds, ∀ key ∈ K.children, ∃ shape ∈ shapes ++ moduleShapes,
      shape.kind = K ∧ shape.key = key ∧ ∀ kind ∈ shape.kinds, kind ∈ nameKinds := by decide
  obtain ⟨hdissolved, hsturdy⟩ := hkinds K hK
  obtain ⟨q', hr, hmk⟩ := h.renewed_of_kind K hk hdissolved
  rcases below_iff.1 hy with rfl | ⟨t, ht, hb⟩
  · exact not_sturdy hmk hsturdy
  · obtain ⟨s, hs, hplace, a, b, hv, -⟩ := hr.slot_of_mem carries_lowers ht
    have hkey := ((mem_slots_iff (childKeys_of_kind K (Node.is_iff.1 hk))).1 hs).1
    obtain ⟨shape, hmem, rfl, hsk, hnames⟩ := hshapes K hK s.key hkey
    obtain ⟨kind, hkind, hc⟩ := hg.parts hmem hk hs hsk.symm
    exact hv.frail_name (hnames kind hkind) hc hb

def nameFields : List (Kind × String) :=
  [(.importDeclaration, "specifiers"), (.importDeclaration, "source"),
    (.exportNamedDeclaration, "specifiers"), (.exportNamedDeclaration, "source"),
    (.exportAllDeclaration, "source"), (.exportAllDeclaration, "exported")]

lemma frail_field (hr : Renewed Lowers n p m q) (hg : ∀ c, Below n c → Grammatical c)
    {e : Kind × String} (he : e ∈ nameFields) (hk : n.is e.1.name = true) {t : Visit.Slot}
    (ht : t ∈ slots m) (hkey : t.key = e.2) (hy : Below t.child y) : ¬Sturdy y := by
  have hshapes : ∀ e ∈ nameFields, ∃ shape ∈ shapes ++ moduleShapes, shape.kind = e.1 ∧
      shape.key = e.2 ∧ ∀ kind ∈ shape.kinds,
        kind ∈ nameKinds ∨ ∃ K ∈ specifierKinds, K.name = kind := by decide
  obtain ⟨s, hs, hplace, a, b, hv, -⟩ := hr.slot_of_mem carries_lowers ht
  obtain ⟨shape, hmem, hkind, hshape, hkinds⟩ := hshapes e he
  have hsk : s.key = shape.key := (congrArg Prod.fst hplace).trans (hkey.trans hshape.symm)
  obtain ⟨kind, hin, hc⟩ := (hg n .refl).parts hmem (hkind ▸ hk) hs hsk
  rcases hkinds kind hin with hname | ⟨K, hK, rfl⟩
  · exact hv.frail_name hname hc hy
  · exact hv.frail_specifier (hg _ (.child .refl hs)) hK hc hy

end Dropped

section Step

lemma Turned.stands (hs : Turned m q m' q') (hr : Renewed Lowers n p m q)
    (hg : ∀ c, Below n c → Grammatical c) {t : Visit.Slot}
    (ht : t ∈ slots m) (hb : Below t.child y) (hy : Sturdy y) : Stands m' q'.state y := by
  have hkind {kind : String} (hk : m.is kind = true) : n.is kind = true := hr.is kind ▸ hk
  cases hs with
  | still => exact .inl (.head ht hb)
  | @operator kind keys new k s ho hk hrew =>
    obtain ⟨hkey, hheld⟩ := (mem_slots_iff (childKeys_of_operands ho hk)).1 ht
    have hget : m.get? t.key = some t.child.toTree := by
      rcases held_iff.1 hheld with ⟨hc, -⟩ | ⟨xs, i, hxs, -, hi⟩
      · exact get?_of_get hc (by simp [toTree])
      · -- An operand is a node, so its slot has no index.
        obtain ⟨s', hs', hplace', -⟩ := hr.slot_of_mem carries_lowers ht
        have hnode := (hg n .refl).operand _ ho (hkind hk) t.key hkey
        obtain ⟨-, hheld'⟩ := (mem_slots_iff (childKeys_of_operands ho (hkind hk))).1 hs'
        rcases held_iff.1 hheld' with ⟨-, hi'⟩ | ⟨ys, j, hys, -⟩
        · cases hi.symm.trans ((congrArg Prod.snd hplace').symm.trans hi')
        · rw [← show s'.key = t.key from congrArg Prod.fst hplace', hys] at hnode
          cases hnode
    rcases hrew.operand hkey hget with hid | hwraps
    · obtain rfl := below_name (by decide) hid hb
      exact absurd hy (not_sturdy hid (by decide))
    · exact .inl (hwraps.below.trans hb)
  | @declaration new k s hd =>
    have hfrail (K : Kind) (hk : m.is K.name = true) (he : (K, t.key) ∈ nameFields) :
        Stands m' s y := absurd hy (frail_field hr hg he (hkind hk) ht rfl hb)
    have hkeys (K : Kind) (hk : m.is K.name = true) : t.key ∈ K.children :=
      ((mem_slots_iff (childKeys_of_kind K (is_iff.1 hk))).1 ht).1
    obtain ⟨kind, hmem, hk⟩ := hd.is_module
    simp only [moduleKinds, List.mem_cons, List.not_mem_nil, or_false] at hmem
    rcases hmem with rfl | rfl | rfl | rfl
    · have hall : ∀ key ∈ Kind.importDeclaration.children,
          (Kind.importDeclaration, key) ∈ nameFields := by decide
      exact hfrail .importDeclaration hk (hall _ (hkeys .importDeclaration hk))
    · have hall : ∀ key ∈ Kind.exportNamedDeclaration.children,
          key = "declaration" ∨ (Kind.exportNamedDeclaration, key) ∈ nameFields := by decide
      rcases hall _ (hkeys .exportNamedDeclaration hk) with hkey | he
      · rcases (hg n .refl).either (hkind hk) with hsource | hnull
        · rw [hd.eq_declaration hk (hr.isNull hsource) ht hkey]
          exact .inl hb
        · have hpart := part_of_slot ht
          have := hr.isNull hnull
          rw [hkey] at hpart
          rcases hpart with hc | ⟨xs, hxs, -⟩
          · rw [hc] at this
            cases this
          · rw [hxs] at this
            cases this
      · exact hfrail .exportNamedDeclaration hk he
    · rcases hd.default_cases hk ht with rfl | ⟨hreturns, e, he, hdecl⟩
      · exact .inl hb
      · exact .inr ⟨hreturns, e, he, t.child, hdecl, hb⟩
    · have hall : ∀ key ∈ Kind.exportAllDeclaration.children,
          (Kind.exportAllDeclaration, key) ∈ nameFields := by decide
      exact hfrail .exportAllDeclaration hk (hall _ (hkeys .exportAllDeclaration hk))

end Step

section Imports

variable {k j : Nat} {s s' : State}

def importCallOf (k : Nat) (s : State) (source : Tree) : Node :=
  ⟨k + 1, .str "CallExpression", [("callee", (Build.identifier (.str (s.use .importer).1) k).1),
    ("arguments", .list [source]), ("optional", .bool false)]⟩

def importPauseOf (k : Nat) (s : State) (source : Tree) : Node :=
  ⟨k + 2, .str "AwaitExpression", [("argument", (importCallOf k s source).toTree)]⟩

lemma calledImporter_eq (k : Nat) (s : State) (source : Tree) : calledImporter k s source =
    if s.importIsAsync then (importPauseOf k s source).toTree
    else (importCallOf k s source).toTree := rfl

lemma below_importPauseOf (source : Tree) :
    Below (importPauseOf k s source) (importCallOf k s source) :=
  .head (s := ⟨"argument", none, importCallOf k s source⟩)
    (slot_of_get? (childKeys_of_kind .awaitExpression rfl) (by decide) rfl) .refl

lemma below_constantOf {i : Nat} {id : Tree} {c : Node} (h : n.toTree = constantOf i id c.toTree) :
    Below n c := by
  obtain rfl : n = ⟨i + 1, .str "VariableDeclaration", _⟩ := toTree_injective h
  refine .head (s := ⟨"declarations", some 0, ⟨i, .str "VariableDeclarator", _⟩⟩)
    (slot_of_item (childKeys_of_kind .variableDeclaration rfl) (by decide) rfl rfl) ?_
  exact .head (s := ⟨"init", none, c⟩)
    (slot_of_get? (childKeys_of_kind .variableDeclarator rfl) (by decide) rfl) .refl

lemma ExportsNames.same {xs : List Tree} (h : ExportsNames xs k s j s') :
    s' = { s with exports := s'.exports } := by
  induction h with
  | nil => rfl
  | cons _ _ ih => rw [ih]; rfl

lemma ExportsLocals.same {xs : List Tree} (h : ExportsLocals xs s s') :
    s' = { s with exports := s'.exports } := by
  induction h with
  | nil => rfl
  | cons _ _ _ ih => rw [ih]; rfl

lemma hasAwait_use_importer (s : State) :
    (s.use .importer).2.hasAwait = (s.hasAwait || s.importIsAsync) := by
  simp only [State.use, State.useImport]
  split <;> rfl

lemma Declared.imports (h : Declared m k s n.toTree j s') :
    s'.importFn = s.importFn ∧ s'.hasAwait = s.hasAwait ∨
      s'.importFn = some (s.use .importer).1 ∧ s'.hasAwait = (s.hasAwait || s.importIsAsync) ∧
        ∃ source c, calledImporter k s source = toTree c ∧ Stands n s' c := by
  have hcall (source : Tree) : ∃ c, calledImporter k s source = toTree c := by
    rw [calledImporter_eq]
    split
    · exact ⟨_, rfl⟩
    · exact ⟨_, rfl⟩
  have hconstant {i : Nat} {id source : Tree}
      (hn : n.toTree = constantOf i id (calledImporter k s source)) :
      ∃ source c, calledImporter k s source = toTree c ∧ Stands n s' c := by
    obtain ⟨c, hc⟩ := hcall source
    rw [hc] at hn
    exact ⟨source, c, hc, .inl (below_constantOf hn)⟩
  generalize ht : n.toTree = t at h
  cases h with
  | importAll | importNames =>
    exact .inr ⟨State.importFn_useImport s, hasAwait_use_importer s, hconstant ht⟩
  | exportFrom _ _ _ _ _ hps =>
    obtain ⟨hfn, hawait, -⟩ := hps.grown
    exact .inr ⟨hfn.trans (State.importFn_useImport s), hawait.trans (hasAwait_use_importer s),
      hconstant ht⟩
  | exportDeclared _ _ _ _ hexports | exportLocals _ _ _ _ hexports =>
    rw [hexports.same]
    exact .inl ⟨rfl, rfl⟩
  | exportDefaultName | exportDefaultValue => exact .inl ⟨rfl, rfl⟩
  | @exportAll source _ _ hreturns =>
    obtain ⟨c, hc⟩ := hcall source
    have hoptions := (Extends.use ⟨k, [], s⟩ .importer).options
    exact .inr ⟨State.importFn_useImport s, hasAwait_use_importer s, source, c, hc,
      .inr ⟨(congrArg Options.returnsExports hoptions).trans hreturns, _,
        List.mem_append_right _ (List.mem_singleton_self _), c, hc, .refl⟩⟩

end Imports

def Brings (root : Node) (start : Progress State) (F : State → Prop) (T : Node → Prop) : Prop :=
  ∀ n m m' p q q', Below root n → Renewed Lowers n p m q → Turned m q m' q' → Extends start q →
    ¬F q.state → F q'.state → ∃ y, T y ∧ Stands m' q'.state y

variable {root : Node} {start : Progress State} {F : State → Prop} {T : Node → Prop}

lemma exists_of_children (hr : Renewed (fun c a d b => Lowers c a d b ∧
      (Extends start a → ¬F a.state → F b.state → ∃ y, T y ∧ Stands d b.state y)) n p m q)
    (hi : Extends start p) (hp : ¬F p.state) (hq : F q.state) :
    ∃ y, T y ∧ ((∃ t ∈ slots m, Below t.child y) ∨ Shelved q.state y) := by
  obtain ⟨s, hs, c, a, b, ht, ⟨-, hv⟩, ha, hb, hpa, hbq⟩ :=
    hr.began (R := Extends) (F := fun p => F p.state) ⟨.refl, .trans, fun h => h.1.extends⟩ hp hq
  obtain ⟨y, hy, hstands | hout⟩ := hv (hi.trans hpa) ha hb
  · exact ⟨y, hy, .inl ⟨_, ht, hstands⟩⟩
  · exact ⟨y, hy, .inr (hout.mono hbq)⟩

theorem Lowers.stands (hbrings : Brings root start F T) (hT : ∀ y, T y → Sturdy y)
    (h : Lowers n p m q) (hroot : Below root n) (hg : ∀ c, Below root c → Grammatical c)
    (hi : Extends start p) (hp : ¬F p.state) (hq : F q.state) :
    ∃ y, T y ∧ Stands m q.state y := by
  refine h.recursion (P := fun _ a d b => Extends start a → ¬F a.state → F b.state →
      ∃ y, T y ∧ Stands d b.state y)
    (fun c m p q m' q' hb hr hs hext hi hp hq => ?_) hi hp hq
  have hl : Renewed Lowers c p m q := hr.mono fun _ _ _ _ _ h => h.1
  by_cases hF : F q.state
  · obtain ⟨y, hy, ⟨t, ht, hbelow⟩ | hout⟩ := exists_of_children hr hi hp hF
    · exact ⟨y, hy, hs.stands hl (fun d hd => hg d ((hroot.trans hb).trans hd)) ht hbelow
        (hT y hy)⟩
    · exact ⟨y, hy, .inr (hout.mono hext)⟩
  · exact hbrings c m m' p q q' (hroot.trans hb) hl hs
      (hi.trans (hl.progress carries_lowers)) hF hq

section Root

variable {root' : Node} {k : Nat}

lemma Closes.below {j : Nat} {s : State} (h : Closes m k s root' j) (hy : Shelved s y) :
    Below root' y := by
  obtain ⟨hreturns, e, he, c, hc, hb⟩ := hy
  cases h with
  | plain hno =>
    rw [hreturns] at hno
    cases hno
  | @exports body t j _ hget hret =>
    obtain ⟨n, rfl, -, hwraps⟩ := wrapsIn_returned hret he hc
    have hslot : (⟨"body", some body.length, n⟩ : Visit.Slot) ∈
        slots (appended (asBlock m) body n.toTree) :=
      slot_of_item (childKeys_of_kind .blockStatement rfl) (show "body" ∈ _ by decide)
        (get?_of_get (get_appended ..) (by simp)) (by simp)
    exact .head hslot (hwraps.below.trans hb)

theorem survives (hbrings : Brings root p F T) (hT : ∀ y, T y → Sturdy y) (hl : Lawful root)
    (hroot : root.is "Program" = true) (hg : ∀ c, Below root c → Grammatical c)
    (hv : visit builtinRules root ⟨none, "", none⟩ p = ⟨.ok (), root', q⟩) (hp : ¬F p.state)
    (hq : F q.state) : ∃ y, T y ∧ Below root' y := by
  obtain ⟨m, r, k, hr, hm, hc, rfl⟩ := lowered_program hl hroot hv
  obtain ⟨y, hy, ⟨t, ht, hb⟩ | hout⟩ := exists_of_children (hr.mono fun s hmem a d b h =>
    ⟨h, h.stands hbrings hT (.child .refl hmem) hg⟩) (.refl p) hp hq
  · exact ⟨y, hy, .head (hc.slot hm ht) hb⟩
  · exact ⟨y, hy, hc.below hout⟩

end Root

end Overload.Lowering
