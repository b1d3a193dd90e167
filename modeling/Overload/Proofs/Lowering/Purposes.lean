import Overload.Proofs.Lowering.Inserting

/-! What new identifiers are for. -/

namespace Overload.Lowering

open Visit List Node Build Overload.Tree

variable {root root' n z : Node} {next i : Nat} {fin : State} {options : Options} {name : String}
  {b : State.Binding} {exported : Tree}

structure Temporary (next : Nat) (root root' : Node) (name : String) (binding reading : Node) :
    Prop where
  made : IsTemporary name
  fresh : ¬Mentioned root name
  declared : ∃ constant bindings, Below root' constant ∧ next ≤ constant.id ∧
    Constant constant bindings ∧ binding.toTree ∈ bindings
  returned : ∃ properties, Returns root' properties ∧ reading.toTree ∈ properties
  bound : ∃ c : Node, binding.get? "value" = some c.toTree ∧ Names c name
  read : ∃ c : Node, reading.get? "value" = some c.toTree ∧ Names c name
  apart : binding ≠ reading
  once : ∀ z, Below root' z → ∀ u ∈ slots z, Names u.child name →
    u.key = "value" ∧ (z = binding ∨ z = reading)

inductive Purpose (next : Nat) (root root' : Node) (s : State) (y : Node) : Prop
  | copy {name : String} : Names y name → Mentioned root name → Purpose next root root' s y
  | key {properties : List Tree} {z : Node} {u : Visit.Slot} : Returns root' properties →
      z.toTree ∈ properties → u ∈ slots z → u.key = "key" → u.child = y → Names y "default" →
      Purpose next root root' s y
  | temporary {name : String} {binding reading : Node} : Names y name →
      Temporary next root root' name binding reading → Purpose next root root' s y
  | callee {name : String} {b : State.Binding} {z : Node} : Below root' z → next ≤ z.id →
      (name, b) ∈ s.bindings → Calls s.options name b z → z.get? "callee" = some y.toTree →
      Purpose next root root' s y

section Places

lemma path_of_below (h : Below n z) : ∃ ups, Path n z ups := by
  induction h with
  | refl => exact ⟨[], .here⟩
  | child _ hs ih =>
    obtain ⟨ups, hups⟩ := ih
    exact ⟨_, hups.trans (.child hs)⟩

lemma parent_unique (hn : n.toTree.numbers.Nodup) {w : Node} (hz : Below n z) (hw : Below n w)
    {u v : Visit.Slot} (hu : u ∈ slots z) (hv : v ∈ slots w) (hid : u.child.id = v.child.id) :
    z = w := by
  obtain ⟨ups, hups⟩ := path_of_below hz
  obtain ⟨downs, hdowns⟩ := path_of_below hw
  have hsame := (path_unique hn (hups.trans (.child hu)) (hdowns.trans (.child hv)) hid).1
  exact (cons.inj hsame).1

lemma below_item {K : Kind} {key : String} (hk : n.is K.name = true) (hkey : key ∈ K.children)
    {xs : List Tree} (hget : n.get? key = some (.list xs)) (hz : z.toTree ∈ xs) : Below n z := by
  obtain ⟨i, hi⟩ := mem_iff_getElem?.1 hz
  exact .child .refl (slot_of_item (childKeys_of_kind K (is_iff.1 hk)) hkey hget hi)

lemma below_field {K : Kind} {key : String} (hk : n.is K.name = true) (hkey : key ∈ K.children)
    (hget : n.get? key = some z.toTree) : Below n z :=
  .child .refl (slot_of_get? (childKeys_of_kind K (is_iff.1 hk)) hkey hget)

lemma Returns.below {properties : List Tree} (h : Returns root' properties)
    (hblock : root'.is "BlockStatement" = true) (hz : z.toTree ∈ properties) : Below root' z := by
  obtain ⟨body, i, j, hget⟩ := h
  let object : Node := ⟨i, .str "ObjectExpression", [("properties", .list properties)]⟩
  let statement : Node := ⟨j, .str "ReturnStatement", [("argument", object.toTree)]⟩
  have hlast : statement.toTree ∈ body ++ [(ret (objectExpression properties i).1 j).1] :=
    mem_append_right _ (mem_singleton.2 rfl)
  have hstatement : Below root' statement :=
    below_item (K := .blockStatement) hblock (by decide) hget hlast
  have hobject : Below statement object :=
    below_field (K := .returnStatement) rfl (show "argument" ∈ _ by decide) rfl
  refine (hstatement.trans hobject).trans ?_
  exact below_item (K := .objectExpression) rfl (show "properties" ∈ _ by decide) rfl hz

lemma Constant.below {bindings : List Tree} (h : Constant n bindings) (hz : z.toTree ∈ bindings) :
    Below n z := by
  obtain ⟨hk, -, declarator, pattern, hdeclarations, hdeclarator, hid, hpattern, hproperties⟩ := h
  have hfirst : Below n declarator := below_item (K := .variableDeclaration) hk (by decide)
    hdeclarations (mem_singleton_self _)
  have hsecond : Below declarator pattern :=
    below_field (K := .variableDeclarator) hdeclarator (by decide) hid
  refine (hfirst.trans hsecond).trans ?_
  exact below_item (K := .objectPattern) hpattern (by decide) hproperties hz

end Places

section Unique

lemma not_isTemporary_default : ¬IsTemporary "default" := by
  rintro (h | ⟨k, h⟩)
  · exact absurd h (by decide)
  · have := congrArg (·.toList.head?) h
    simp [Supply.numbered, State.temporaryBase] at this

lemma Takes.unique {other : State.Binding} {arguments : List Tree} (h : Takes options b arguments)
    (h' : Takes options other arguments) : b = other := by
  cases h with
  | unary | binary | importer => cases h'; rfl

lemma identifier_inj {other : String} {j : Nat}
    (h : (identifier (.str name) i).1 = (identifier (.str other) j).1) :
    name = other ∧ i = j := by
  simpa [identifier, Build.node, and_comm] using h

lemma Calls.unique {other : String} {c : State.Binding} (h : Calls options name b z)
    (h' : Calls options other c z) : name = other ∧ b = c := by
  obtain ⟨-, i, arguments, hc, ha, ht⟩ := h
  obtain ⟨-, j, arguments', hc', ha', ht'⟩ := h'
  obtain rfl : arguments = arguments' := by simpa using ha.symm.trans ha'
  exact ⟨(identifier_inj (Option.some.inj (hc.symm.trans hc'))).1, ht.unique ht'⟩

lemma names_unique {other : String} (h : Names n name) (h' : Names n other) : name = other := by
  simpa using h.2.symm.trans h'.2

lemma names_identifier {other : String} (h : Names n name)
    (hn : n.toTree = (identifier (.str other) i).1) : name = other ∧ n.id = i := by
  obtain rfl : n = ⟨i, .str "Identifier", [("name", .str other)]⟩ := toTree_injective hn
  exact ⟨names_unique h ⟨rfl, rfl⟩, rfl⟩

lemma Calls.callee (h : Calls options name b z) {u : Visit.Slot} (hu : u ∈ slots z)
    (hkey : u.key = "callee") : z.get? "callee" = some u.child.toTree ∧ Names u.child name := by
  obtain ⟨-, i, arguments, hc, -, -⟩ := h
  have hpart := part_of_slot hu
  rw [hkey, Node.get, hc] at hpart
  rcases hpart with hchild | ⟨xs, hxs, -⟩
  · have hnode : ⟨i, .str "Identifier", [("name", .str name)]⟩ = u.child :=
      toTree_injective hchild
    exact ⟨hc.trans (congrArg some hchild), hnode ▸ ⟨rfl, rfl⟩⟩
  · cases hxs

end Unique

section Finished

lemma mem_helpers (h : (name, b) ∈ fin.bindings) : name ∈ fin.helpers := by
  rw [← State.map_bindings]
  exact mem_map_of_mem (f := (·.1)) h

structure Finished (root : Node) (next : Nat) (fin : State) (root' : Node) : Prop where
  block : root'.is "BlockStatement" = true
  nodup : root'.toTree.numbers.Nodup
  inside : Inside (Used root next fin root') next fin root'
  reserved : ∃ source, (∀ name, name ∈ source ↔ Mentioned root name) ∧ Reserved source fin
  constant : ∀ name i exported, ¬Mentioned root name →
    ⟨(identifier (.str name) (i + 2)).1, exported, false⟩ ∈ fin.exports →
    fin.options.returnsExports = true ∧ ∃ constant bindings bound, Below root' constant ∧
      next ≤ constant.id ∧ Constant constant bindings ∧ (bindingOf bound name i).toTree ∈ bindings
  returns : fin.options.returnsExports = true → ∃ k properties, Returns root' properties ∧
    Forall₂ (Exported k) fin.exports properties

lemma Exported.reading {e : Export} {x : Tree} {k : Nat} (h : Exported k e x)
    (he : e.spread = false) : ∃ reading : Node, x = reading.toTree ∧
      reading.is "Property" = true ∧ reading.get? "value" = some e.declaration := by
  cases h with
  | spread hspread =>
    rw [he] at hspread
    cases hspread
  | property => exact ⟨⟨_, _, _⟩, rfl, rfl, rfl⟩

variable (h : Finished root next fin root') (hno : ¬Mentioned root name)
  (he : ⟨(identifier (.str name) (i + 2)).1, exported, false⟩ ∈ fin.exports)
include h hno he

lemma Finished.recorded : IsTemporary name ∧ name ∉ fin.helpers ∧ ∀ j exported',
    ⟨(identifier (.str name) (j + 2)).1, exported', false⟩ ∈ fin.exports → j = i := by
  obtain ⟨source, hsource, hreserved⟩ := h.reserved
  have hout : name ∉ source := fun hin => hno ((hsource name).1 hin)
  have htitle (j : Nat) : title? (identifier (.str name) j).1 = some name :=
    title?_eq_some.2 ⟨⟨j, _, _⟩, rfl, rfl, rfl⟩
  have hmem : name ∈ temporaries source fin.exports :=
    mem_filter.2 ⟨mem_filterMap.2 ⟨_, he, htitle _⟩, by simpa using hout⟩
  refine ⟨hreserved.temporary name hmem, (hreserved.aside.apart name hmem).1, fun j key hj => ?_⟩
  have hsame := hreserved.unique hj he (htitle _) (htitle _) hout
  have hnumber := (identifier_inj (congrArg Export.declaration hsame)).2
  omega

lemma Finished.temporary :
    ∃ binding reading, Temporary next root root' name binding reading := by
  obtain ⟨hmade, hhelper, hrecord⟩ := h.recorded hno he
  obtain ⟨hreturns, constant, bindings, bound, hbelow, hnew, hconstant, hbinding⟩ :=
    h.constant name i exported hno he
  obtain ⟨k, properties, hproperties, hall⟩ := h.returns hreturns
  obtain ⟨_, hreading, hexported⟩ := exists_of_forall₂ hall.flip he
  obtain ⟨reading, rfl, hproperty, hvalue⟩ := hexported.reading rfl
  let value (j : Nat) : Node := ⟨j, .str "Identifier", [("name", .str name)]⟩
  have hread : (⟨"value", none, value (i + 2)⟩ : Visit.Slot) ∈ slots reading :=
    slot_of_get? (childKeys_of_kind .property (is_iff.1 hproperty)) (by decide) hvalue
  have hbound : (⟨"value", none, value i⟩ : Visit.Slot) ∈ slots (bindingOf bound name i) :=
    slot_of_get? (childKeys_of_kind .property rfl) (by decide) rfl
  refine ⟨bindingOf bound name i, reading, hmade, hno, ⟨constant, bindings, hbelow, hnew, hconstant,
    hbinding⟩, ⟨properties, hproperties, hreading⟩, ⟨value i, rfl, rfl, rfl⟩,
    ⟨value (i + 2), hvalue, rfl, rfl⟩, fun hsame => ?_, fun z hz u hu hname => ?_⟩
  · have hid : value i = value (i + 2) :=
      toTree_injective (Option.some.inj ((hsame ▸ rfl : _ = _).trans hvalue))
    have := congrArg Node.id hid
    simp [value] at this
  · rcases h.inside.role z hz u hu hname.1 with hserves | ⟨others, hothers, hshows⟩
    · cases hserves with
      | copy hcopy hm => exact absurd (names_unique hname hcopy ▸ hm) hno
      | callee hkey _ hcalls =>
        obtain ⟨other, b, hmem, hcalls⟩ := hcalls
        obtain rfl := names_unique hname (hcalls.callee hu hkey).2
        exact absurd (mem_helpers hmem) hhelper
      | bound hkey hc hmem =>
        obtain ⟨rfl, hid⟩ := names_identifier hname hc
        obtain rfl := hrecord _ _ hmem
        exact ⟨hkey, .inl (parent_unique h.nodup hz (hbelow.trans (hconstant.below hbinding)) hu
          hbound hid)⟩
    · cases hshows with
      | key hmem hkey hiskey =>
        obtain ⟨other, hother, hm | rfl⟩ := hiskey.2 hname.1
        · exact absurd (names_unique hname hother ▸ hm) hno
        · exact absurd (names_unique hname hother ▸ hmade) not_isTemporary_default
      | value hmem hkey hc hrec =>
        obtain ⟨rfl, hid⟩ := names_identifier hname hc
        obtain rfl := hrecord _ _ hrec
        exact ⟨hkey, .inr (parent_unique h.nodup hz (hproperties.below h.block hreading) hu hread
          hid)⟩

omit hno he

lemma Finished.purpose {y : Node} (hy : Below root' y) (hi : y.is "Identifier" = true) :
    Purpose next root root' fin y := by
  have hrecord {name : String} {i j : Nat} {exported : Tree}
      (hname : y.toTree = (identifier (.str name) j).1)
      (he : ⟨(identifier (.str name) (i + 2)).1, exported, false⟩ ∈ fin.exports) :
      Purpose next root root' fin y := by
    obtain rfl : y = ⟨j, .str "Identifier", [("name", .str name)]⟩ := toTree_injective hname
    by_cases hm : Mentioned root name
    · exact .copy ⟨rfl, rfl⟩ hm
    · obtain ⟨binding, reading, ht⟩ := h.temporary hm he
      exact .temporary ⟨rfl, rfl⟩ ht
  cases hy with
  | refl => exact (is_unique h.block hi (by decide)).elim
  | @child z u hz hu =>
    rcases h.inside.role z hz u hu hi with hserves | ⟨properties, hproperties, hshows⟩
    · cases hserves with
      | copy hname hm => exact .copy hname hm
      | callee hkey hle hcalls =>
        obtain ⟨name, b, hmem, hcalls⟩ := hcalls
        exact .callee hz hle hmem hcalls (hcalls.callee hu hkey).1
      | bound _ hc he => exact hrecord hc he
    · cases hshows with
      | key hmem hkey hiskey =>
        obtain ⟨name, hname, hm | rfl⟩ := hiskey.2 hi
        · exact .copy hname hm
        · exact .key hproperties hmem hu hkey rfl hname
      | value _ _ hc he => exact hrecord hc he

lemma Finished.bound (hz : Below root' z) (hle : next ≤ z.id) (hc : Calls fin.options name b z) :
    (name, b) ∈ fin.bindings := by
  rcases h.inside.call z hz hle hc.1 with ⟨other, c, hmem, hcalls⟩ | ⟨f, hf, harrow⟩
  · obtain ⟨rfl, rfl⟩ := hc.unique hcalls
    exact hmem
  · obtain ⟨-, i, -, hcallee, -⟩ := hc
    obtain rfl : (⟨i, .str "Identifier", [("name", .str name)]⟩ : Node) = f :=
      toTree_injective (Option.some.inj (hcallee.symm.trans hf))
    exact (is_unique harrow rfl (by decide : _ ≠ "Identifier")).elim

end Finished

section Run

variable {d : Data} {k : Nat} {start : State} {q : Progress State}

lemma reserved_ofTree (hs : State.ofTree root.toTree options = .ok start) :
    ∃ source, (∀ name, name ∈ source ↔ Mentioned root name) ∧ Reserved source start := by
  classical
  obtain ⟨-, hexports, -, hhelpers, -⟩ := ofTree_eq_ok hs
  have hnone (source : List String) : temporaries source start.exports = [] := by
    simp [temporaries, hexports]
  refine ⟨start.names.taken.filter fun name => Mentioned root name, fun name => ?_, ?_, ?_⟩
  · rw [mem_filter, decide_eq_true_eq]
    exact ⟨fun h => h.2, fun h => ⟨taken_ofTree hs h, h⟩⟩
  · rw [hnone]
    exact ⟨.nil, fun name h => mem_of_mem_filter h, by simp [hhelpers], by simp, by simp⟩
  · rw [hnone]
    simp

lemma finished_visit (hl : Lawful root) (hroot : (ofData d k).1 = root.toTree)
    (hprogram : root.is "Program" = true) (hg : ∀ n, Below root n → Grammatical n)
    (hnext : (ofData d k).2 ≤ next) (hs : State.ofTree root.toTree options = .ok start)
    (hv : visit builtinRules root ⟨none, "", none⟩ ⟨next, [], start⟩ = ⟨.ok (), root', q⟩) :
    Finished root next q.state root' := by
  obtain ⟨hoptions, hexports, -, hhelpers, -⟩ := ofTree_eq_ok hs
  obtain ⟨m, r, j, hr, hm, hcloses, rfl⟩ := lowered_program hl hprogram hv
  have hstart : Extends ⟨next, [], start⟩ r := hr.progress carries_lowers
  have hgiven : Given next root := given_ofData d k hroot hnext
  have hvouched : Renewed (Vouched root ⟨next, [], start⟩ r) root ⟨next, [], start⟩ m r :=
    hr.mono fun s hmem _ _ _ h => h.vouched hg hgiven (.child .refl hmem)
  have hnone : Accounts root next r.state start := by simp [Accounts, hexports]
  obtain ⟨hblock, hinside⟩ := hcloses.inside hm
    (explained_slot hvouched (.refl _) (.refl r) hnone)
    ((hvouched.progress carries_vouched).accounts (.refl _) (.refl r) hnone)
  refine ⟨hblock, ?_, hinside, ?_, fun name i exported hno he => ?_, fun hreturns => ?_⟩
  · exact nodup_visit hl hroot hnext (fun c hc => (hg c hc).formed) hexports hv
  · obtain ⟨source, hsource, hreserved⟩ := reserved_ofTree hs
    exact ⟨source, hsource, reserved_visit hg (fun name => (hsource name).2) hl hv hreserved⟩
  · obtain ⟨y, ⟨hle, hreturns, bindings, bound, hconstant, hbinding⟩, hy⟩ :=
      survives (brings_constant hg ⟨next, [], start⟩ hno i)
        (fun y h => ⟨"VariableDeclaration", by decide, by
          obtain ⟨-, -, _, _, hc, -⟩ := h
          exact hc.1⟩) hl hprogram hg hv (by simp [hexports]) ⟨exported, he⟩
    exact ⟨hstart.options ▸ hreturns, y, bindings, bound, hy, hle, hconstant, hbinding⟩
  · obtain ⟨ps, hps⟩ := hcloses.returns hreturns
    exact ⟨_, ps, hps⟩

/-- In the tree that the lowering of a program of the grammar leaves, every identifier has a name of
the program, is the key of the default export, belongs to a temporary that one new constant binds and
the exports read once, or is the name under which a helper is called; and a helper is bound to a name
just if the tree has a new call of that name with arguments for the helper. No node stands in two
places. -/
theorem generated_identifiers_closed (d : Json) (k : Nat) {root : Node}
    (hroot : (Tree.ofData d k).1 = root.toTree) (hprogram : root.is "Program" = true)
    (hg : ∀ n, Below root n → Grammatical n) {options : Options} (hc : options.customRules = [])
    {next : Nat} (hnext : (Tree.ofData d k).2 ≤ next) {s : State}
    (h : (run options root.toTree next).outcome = .ok s) :
    ∃ root' : Node, (run options root.toTree next).tree = root'.toTree ∧
      root'.toTree.numbers.Nodup ∧
      (∀ y, Below root' y → y.is "Identifier" = true → Purpose next root root' s y) ∧
      ∀ name b, (name, b) ∈ s.bindings ↔
        ∃ z, Below root' z ∧ next ≤ z.id ∧ Calls options name b z := by
  have hl := d.lawful hroot
  obtain ⟨start, root', q, hs, hv, rfl, hrun⟩ := run_eq_ok hc hl h
  obtain ⟨hoptions, -, -, hhelpers, -⟩ := ofTree_eq_ok hs
  have hfinished := finished_visit hl hroot hprogram hg hnext hs hv
  refine ⟨root', by rw [hrun], hfinished.nodup, fun y => hfinished.purpose, fun name b =>
    ⟨fun hmem => ?_, ?_⟩⟩
  · have hno : (name, b) ∉ start.bindings := fun hin => by
      have := mem_helpers hin
      rw [hhelpers] at this
      cases this
    obtain ⟨z, ⟨hle, hcalls⟩, hz⟩ := survives (brings_call root _ name b)
      (fun z hz => ⟨"CallExpression", by decide, hz.2.1⟩) hl hprogram hg hv hno hmem
    exact ⟨z, hz, hle, hoptions ▸ hcalls⟩
  · rintro ⟨z, hz, hle, hcalls⟩
    obtain ⟨m, r, hr, -, hext⟩ := lowered_step hl hv
    have hfin : q.state.options = options :=
      ((hr.progress carries_lowers).trans hext).options.trans hoptions
    exact hfinished.bound hz hle (hfin ▸ hcalls)

def busy : Data :=
  let name (s : String) : Data := .object [("type", .str "Identifier"), ("name", .str s)]
  let literal (v : Data) : Data := .object [("type", .str "Literal"), ("value", v)]
  .object [("type", .str "Program"), ("body", .list [
    .object [("type", .str "ExpressionStatement"), ("expression",
      .object [("type", .str "BinaryExpression"), ("operator", .str "+"),
        ("left", .object [("type", .str "UnaryExpression"), ("operator", .str "-"),
          ("argument", name "$__")]), ("right", name "x")])],
    .object [("type", .str "ExportNamedDeclaration"), ("declaration", .null),
      ("specifiers", .list [.object [("type", .str "ExportSpecifier"), ("local", name "a"),
        ("exported", name "$tmp")]]), ("source", literal (.str "m"))],
    .object [("type", .str "ExportDefaultDeclaration"), ("declaration",
      .object [("type", .str "AssignmentExpression"), ("operator", .str "+="), ("left", name "x"),
        ("right", literal (.num (.int 1)))])]])]

def busyRoot : Node := (ofData busy 0).1.node?.getD ⟨0, .null, []⟩

def busyOptions : Options := { Options.default with importer := some .function }

theorem generated_identifiers_closed_busy : ∃ (s : State) (root' : Node),
    (run busyOptions busyRoot.toTree 40).outcome = .ok s ∧
    (run busyOptions busyRoot.toTree 40).tree = root'.toTree ∧
    (∀ y, Below root' y → y.is "Identifier" = true → Purpose 40 busyRoot root' s y) ∧
    ∀ e ∈ [("$__1", State.Binding.unary), ("__$__", .binary), ("$import", .importer (some .function))],
      ∃ z, Below root' z ∧ 40 ≤ z.id ∧ Calls busyOptions e.1 e.2 z := by
  have hbindings : (run busyOptions busyRoot.toTree 40).outcome.toOption.map (·.bindings) =
      some [("$__1", .unary), ("__$__", .binary), ("$import", .importer (some .function))] := by
    decide +kernel
  have hgrammar : Every Grammatical busyRoot.toTree := by decide +kernel
  obtain ⟨s, hs, hb⟩ : ∃ s, (run busyOptions busyRoot.toTree 40).outcome = .ok s ∧ s.bindings =
      [("$__1", .unary), ("__$__", .binary), ("$import", .importer (some .function))] := by
    cases hs : (run busyOptions busyRoot.toTree 40).outcome with
    | error e => simp [hs, Except.toOption] at hbindings
    | ok s => exact ⟨s, rfl, by simpa [hs, Except.toOption] using hbindings⟩
  obtain ⟨root', htree, -, hpurpose, hcalls⟩ := generated_identifiers_closed
    ⟨busy, by decide +kernel⟩ 0 (show (ofData busy 0).1 = busyRoot.toTree from rfl) (by decide +kernel)
    (fun n hn => hgrammar.reaches ⟨busyRoot, rfl, hn⟩) rfl (by decide +kernel) hs
  exact ⟨s, root', hs, htree, hpurpose, fun e he => (hcalls e.1 e.2).1 (hb ▸ he)⟩

end Run

end Overload.Lowering
