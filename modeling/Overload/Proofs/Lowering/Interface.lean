import Overload.Proofs.Lowering.Offers

/-! The interface of a program. -/

namespace Overload.Lowering

open Visit Option Except State Overload.Tree

variable {source c : Node} {kind : String}

variable {b b' m : Node} {p q : Progress State}

def Delivers (o : Offer) (p : Progress State) (b : Node) (q : Progress State) : Prop :=
  ∃ records names, q.state.exports = p.state.exports ++ records ∧
    (∀ source used, SetAside source used p.state → SetAside source (used ++ names) q.state) ∧
    ∀ start final ps, Extends start p → Extends q final →
      List.Forall₂ (Exported 0) records ps → Fulfils start final b o ps names

lemma delivers_of_lowers {o : Offer} (records : List Export) (h : Lowers b p b' q)
    (hexports : q.state.exports = p.state.exports ++ records)
    (hf : ∀ start final ps, Extends start p → Extends q final →
      List.Forall₂ (Exported 0) records ps → Fulfils start final b' o ps []) :
    Delivers o p b' q := by
  refine ⟨records, [], hexports, fun source used hs => ?_, hf⟩
  rw [List.append_nil]
  exact h.keeps (closed_setAside source used) (notes_setAside source used) hs

section Statements

def Flat (b : Node) : Prop :=
  ∀ s ∈ slots b, ∀ k, Below s.child k → ∀ kind ∈ moduleKinds, k.is kind = false

lemma Lowers.declared (h : Lowers b p b' q) (hflat : Flat b) (hmem : kind ∈ moduleKinds)
    (hk : b.is kind = true) : ∃ m r t k s, Renewed Lowers b p m r ∧
      m.is kind = true ∧ r.state.exports = p.state.exports ∧ Extends p r ∧ Extends r q ∧
      Declared m r.next r.state t k s ∧ b'.toTree = t ∧ q.state = s := by
  obtain ⟨m, r, hr, hs, he⟩ := h.step
  have hm : m.is kind = true := by rwa [hr.is]
  obtain ⟨k, s, hd, rfl⟩ := hs.declared hmem hm
  refine ⟨m, r, _, k, s, hr, hm, lowered_exports hr fun s hs k hb kind hmem => ?_,
    hr.progress carries_lowers, he, hd, rfl, rfl⟩
  have hsub : ∀ kind ∈ exportKinds, kind ∈ moduleKinds := by decide
  exact hflat s hs k hb kind (hsub kind hmem)

lemma delivers_nothing (h : Lowers b p b' q) (hflat : Flat b)
    (hno : ∀ kind ∈ exportKinds, b.is kind = false) : Delivers (.nothing b) p b' q := by
  obtain ⟨m, r, hr, hs, -⟩ := h.step
  have hexports : r.state.exports = p.state.exports := by
    refine lowered_exports hr fun s hs k hb kind hmem => ?_
    have hsub : ∀ kind ∈ exportKinds, kind ∈ moduleKinds := by decide
    exact hflat s hs k hb kind (hsub kind hmem)
  have hstep := hs.exports fun kind hk => (hr.is kind).trans (hno kind hk)
  refine delivers_of_lowers [] h (by rw [hstep, hexports, List.append_nil])
    fun start final ps hstart hfinal hps => ?_
  cases hps
  exact .nothing ⟨p, q, hstart, h, hfinal⟩

lemma delivers_declaration (h : Lowers b p b' q) (hflat : Flat b) (hf : FormedBelow b)
    {xs : List Tree} {names : List String} (hk : b.is "ExportNamedDeclaration" = true)
    (hsource : (b.get "source").isNull = true) (hc : b.get? "declaration" = some c.toTree)
    (hd : Declares c xs)
    (hx : List.Forall₂ (fun x name => ∃ n : Node, x = n.toTree ∧ Names n name) xs names) :
    Delivers (.declaration c names) p b' q := by
  obtain ⟨m, r, t, k, s, hr, hm, hexports, -, hrq, hdecl, ht, hq⟩ :=
    h.declared hflat (by decide) hk
  have hkeys := childKeys_of_kind .exportNamedDeclaration (Node.is_iff.1 hk)
  obtain ⟨d, a, e, hget, hv, hpa, her⟩ := hr.field carries_lowers hkeys (by decide) hc
  have hmd : m.get "declaration" = d.toTree := by rw [Node.get, hget, getD_some]
  have hlowered : Declares d xs := by
    refine hd.lowered (fun k hb => ?_) (fun x hmem => ?_) hv
    · exact hf.field .exportNamedDeclaration hk (by decide) hc c (.inl rfl) k hb
    · obtain ⟨name, -, n, rfl, hn, -⟩ := exists_of_forall₂ hx.flip hmem
      exact ⟨n, rfl, hn⟩
  cases hdecl with
  | @exportDeclared names' _ _ _ _ _ hnames hrecorded =>
    rw [hmd] at hnames ht
    obtain rfl := Node.toTree_injective ht
    obtain rfl : xs = names' :=
      ok.inj ((declaredNames_eq_ok_iff.2 hlowered).symm.trans hnames)
    obtain ⟨records, hrecords, hall⟩ := hrecorded.records hx
    refine delivers_of_lowers records h (by rw [hq, hrecords, hexports])
      fun start final ps hstart hfinal hps => .declaration ?_ (hall ps hps)
    exact ⟨a, e, hstart.trans hpa, hv, (her.trans hrq).trans hfinal⟩
  | exportFrom _ _ hs hnull =>
    have := hr.isNull hsource
    rw [Node.get, hs, getD_some, hnull] at this
    cases this
  | exportLocals _ _ hnull =>
    rw [hmd] at hnull
    cases hnull
  | importAll ho | importNames ho | exportDefaultName ho | exportDefaultValue ho | exportAll ho =>
    exact (is_unique hm ho (by decide)).elim

lemma Specifies.lowered {n : Node} {c : Specifier} (h : Specifies n c) (hm : Lowers n p m q) :
    Specifies m c := by
  obtain ⟨r, hr, hmk⟩ := hm.renewed_of_kind .exportSpecifier h.kind (by decide)
  obtain ⟨kind, hmem, hk⟩ := h.bound_name
  obtain ⟨other, homem, ho⟩ := h.exported_name
  exact ⟨hmk, lowered_name hr .exportSpecifier h.kind (by decide) hmem hk h.bound,
    lowered_name hr .exportSpecifier h.kind (by decide) homem ho h.exported, h.bound_name,
    h.exported_name⟩

lemma Lists.lowered {specifiers : List Specifier} (h : Lists b specifiers)
    (hk : b.is "ExportNamedDeclaration" = true) (hr : Renewed Lowers b p m q) :
    ∃ elements, m.get? "specifiers" = some (.list elements) ∧ Reads elements specifiers := by
  obtain ⟨nodes, hget, hall⟩ := h
  obtain ⟨ds, hds, hlowers⟩ := hr.list carries_lowers
    (childKeys_of_kind .exportNamedDeclaration (Node.is_iff.1 hk)) (by decide) hget
  refine ⟨_, hds, ?_⟩
  clear hget hds
  induction hall generalizing ds with
  | nil =>
    cases hlowers
    exact .nil
  | cons hc _ ih =>
    obtain ⟨d, rest, ⟨a, e, hv, -⟩, hrest, rfl⟩ := List.forall₂_cons_left_iff.1 hlowers
    have hd := hc.lowered hv
    exact .cons ⟨attr_eq_ok.2 hd.bound, attr_eq_ok.2 hd.exported⟩ (ih rest hrest)

lemma Lists.below {specifiers : List Specifier} (h : Lists b specifiers)
    (hk : b.is "ExportNamedDeclaration" = true) {c : Specifier} (hc : c ∈ specifiers) :
    Below b c.exported := by
  obtain ⟨nodes, hget, hall⟩ := h
  obtain ⟨n, hn, hs⟩ := exists_of_forall₂ hall hc
  obtain ⟨i, hi⟩ := List.getElem?_of_mem (List.mem_map_of_mem (f := Node.toTree) hn)
  have hslot := slot_of_item (childKeys_of_kind .exportNamedDeclaration (Node.is_iff.1 hk))
    (by decide) hget hi
  exact .head hslot (.child .refl (slot_of_get?
    (childKeys_of_kind .exportSpecifier (Node.is_iff.1 hs.kind)) (by decide) hs.exported))

lemma isEmpty_of_toTree {i : Nat} (h : b.toTree = (Build.empty i).1) :
    b.is "EmptyStatement" = true := by
  rw [Node.toTree_injective (m := ⟨_, _, _⟩) h]
  rfl

lemma delivers_locals (h : Lowers b p b' q) (hflat : Flat b) (hf : FormedBelow b)
    {specifiers : List Specifier} (hk : b.is "ExportNamedDeclaration" = true)
    (hsource : (b.get "source").isNull = true) (hnone : (b.get "declaration").isNull = true)
    (hl : Lists b specifiers) : Delivers (.locals specifiers) p b' q := by
  obtain ⟨m, r, t, k, s, hr, hm, hexports, -, -, hdecl, ht, hq⟩ := h.declared hflat (by decide) hk
  obtain ⟨elements, hget, hreads⟩ := hl.lowered hk hr
  cases hdecl with
  | @exportLocals elements' s _ _ _ helements hrecorded =>
    obtain rfl : elements = elements' := by
      rw [Node.get, hget, getD_some, specifierElements] at helements
      cases elements <;> exact ok.inj helements
    obtain ⟨records, hrecords, hall⟩ :=
      hrecorded.records hreads fun c hc => hf _ (hl.below hk hc)
    exact delivers_of_lowers records h (by rw [hq, hrecords, hexports])
      fun start final ps _ _ hps => .locals (isEmpty_of_toTree ht) (hall ps hps)
  | exportFrom _ _ hs hnull =>
    have := hr.isNull hsource
    rw [Node.get, hs, getD_some, hnull] at this
    cases this
  | exportDeclared _ _ hnull =>
    rw [hr.isNull hnone] at hnull
    cases hnull
  | importAll ho | importNames ho | exportDefaultName ho | exportDefaultValue ho | exportAll ho =>
    exact (is_unique hm ho (by decide)).elim

lemma importCall_final {s : State} {final : Progress State} (k : Nat)
    (hasync : s.importIsAsync = s.options.awaitsImports)
    (hoptions : final.state.options = s.options)
    (hfn : final.state.importFn = some (s.use .importer).1) :
    ImportCall final.state source (calledImporter k s source.toTree) := by
  refine ⟨(s.use .importer).1, k, hfn, ?_⟩
  rw [hoptions, ← hasync]
  rfl

def Awaits (p : Progress State) : Prop :=
  p.state.importIsAsync = p.state.options.awaitsImports

lemma closed_awaits : Closed Awaits where
  build _ _ h _ := h
  use p h hp := by
    cases h with
    | unary => simp only [Awaits, use, useUnary]; split <;> exact hp
    | binary => simp only [Awaits, use, useBinary]; split <;> exact hp
    | importer => simp only [Awaits, use, useImport]; split <;> exact hp
    | temporary => exact hp
  record _ _ h := h
  await _ h := h

lemma notes_awaits : Notes Awaits := by
  intro p name s h hs
  obtain rfl := identify_eq_ok hs
  exact h

lemma delivers_passed (h : Lowers b p b' q) (hflat : Flat b) (hf : FormedBelow b)
    (htaken : ∀ name, Mentioned b name → name ∈ p.state.names.taken) (hawaits : Awaits p)
    {specifiers : List Specifier} (hk : b.is "ExportNamedDeclaration" = true)
    (hsource : b.get? "source" = some source.toTree) (hliteral : source.is "Literal" = true)
    (hl : Lists b specifiers) : Delivers (.passed source specifiers) p b' q := by
  obtain ⟨m, r, t, k, s, hr, hm, hexports, hpr, hrq, hdecl, ht, hq⟩ :=
    h.declared hflat (by decide) hk
  obtain ⟨elements, hget, hreads⟩ := hl.lowered hk hr
  have hms := lowered_name hr .exportNamedDeclaration hk (by decide) (by decide) hliteral hsource
  have hmnull : (m.get "source").isNull = false := by rw [Node.get, hms]; rfl
  cases hdecl with
  | @exportFrom specifiers' source' elements' bindings j _ _ hspecifiers hs _ helements hrecorded =>
    obtain rfl : source.toTree = source' := some.inj (hms.symm.trans hs)
    obtain rfl : .list elements = specifiers' := some.inj (hget.symm.trans hspecifiers)
    obtain rfl : elements = elements' := ok.inj helements
    obtain ⟨hfn, records, names, hrecords, haside, hall⟩ := hrecorded.records hreads
      (fun c hc => hf _ (hl.below hk hc)) fun c hc name hn => by
        refine (Extends.use r .importer).taken.subset (hpr.taken.subset (htaken name ?_))
        exact ⟨_, hl.below hk hc, hn⟩
    refine ⟨records, names, by rw [hq, hrecords, exports_use, hexports], fun origin used hs => ?_,
      fun start final ps hstart hfinal hps => ?_⟩
    · rw [hq]
      exact haside origin used ((lowered_keeps (closed_setAside origin used)
        (notes_setAside origin used) hr hs).use .importer)
    · refine .passed (importCall_final r.next (lowered_keeps closed_awaits notes_awaits hr hawaits)
        (hfinal.options.trans hrq.options) (hfinal.importFn _ ?_)) ht (hall ps hps)
      rw [hq, hfn]
      exact r.state.importFn_useImport
  | exportDeclared _ hnull | exportLocals _ hnull =>
    rw [hmnull] at hnull
    cases hnull
  | importAll ho | importNames ho | exportDefaultName ho | exportDefaultValue ho | exportAll ho =>
    exact (is_unique hm ho (by decide)).elim

lemma delivers_all (h : Lowers b p b' q) (hflat : Flat b) (hawaits : Awaits p)
    (hk : b.is "ExportAllDeclaration" = true) (hsource : b.get? "source" = some source.toTree)
    (hliteral : source.is "Literal" = true) (hnone : (b.get "exported").isNull = true) :
    Delivers (.all source) p b' q := by
  obtain ⟨m, r, t, k, s, hr, hm, hexports, hpr, hrq, hdecl, ht, hq⟩ :=
    h.declared hflat (by decide) hk
  have hms := lowered_name hr .exportAllDeclaration hk (by decide) (by decide) hliteral hsource
  cases hdecl with
  | exportAll _ hs =>
    obtain rfl := some.inj (hms.symm.trans hs)
    refine delivers_of_lowers _ h (by rw [hq, record, exports_use, hexports])
      fun start final ps _ hfinal hps => ?_
    obtain ⟨u, us, hu, hnil, rfl⟩ := List.forall₂_cons_left_iff.1 hps
    cases hnil
    rw [hr.isNull hnone] at hu
    cases hu with
    | property hspread => cases hspread
    | spread =>
      refine .all (importCall_final r.next (lowered_keeps closed_awaits notes_awaits hr hawaits)
        (hfinal.options.trans hrq.options) (hfinal.importFn _ ?_)) (isEmpty_of_toTree ht)
      rw [hq]
      exact r.state.importFn_useImport
  | importAll ho | importNames ho | exportDefaultName ho | exportDefaultValue ho | exportFrom ho
  | exportDeclared ho | exportLocals ho => exact (is_unique hm ho (by decide)).elim

lemma calledImporter_eq_toTree (k : Nat) (s : State) (source : Tree) :
    ∃ call : Node, calledImporter k s source = call.toTree ∧ call.is "Identifier" = false := by
  unfold calledImporter
  cases s.importIsAsync
  · exact ⟨⟨_, _, _⟩, rfl, rfl⟩
  · exact ⟨⟨_, _, _⟩, rfl, rfl⟩

lemma delivers_space (h : Lowers b p b' q) (hflat : Flat b) (hf : FormedBelow b)
    (hawaits : Awaits p) {exported : Node} (hk : b.is "ExportAllDeclaration" = true)
    (hsource : b.get? "source" = some source.toTree) (hliteral : source.is "Literal" = true)
    (hexported : b.get? "exported" = some exported.toTree) (hname : IsName exported) :
    Delivers (.space source exported) p b' q := by
  obtain ⟨m, r, t, k, s, hr, hm, hexports, hpr, hrq, hdecl, ht, hq⟩ :=
    h.declared hflat (by decide) hk
  obtain ⟨kind, hmem, hkind⟩ := hname
  have hms := lowered_name hr .exportAllDeclaration hk (by decide) (by decide) hliteral hsource
  have hme := lowered_name hr .exportAllDeclaration hk (by decide) hmem hkind hexported
  cases hdecl with
  | exportAll _ hs =>
    obtain rfl := some.inj (hms.symm.trans hs)
    refine delivers_of_lowers _ h (by rw [hq, record, exports_use, hexports])
      fun start final ps _ hfinal hps => ?_
    obtain ⟨u, us, hu, hnil, rfl⟩ := List.forall₂_cons_left_iff.1 hps
    cases hnil
    have hget : m.get "exported" = exported.toTree := by rw [Node.get, hme, getD_some]
    rw [hget] at hu
    obtain ⟨shorthand, hkeyed, hsame⟩ := Exported.keyed hu
    obtain ⟨call, hcall, hno⟩ := calledImporter_eq_toTree r.next r.state source.toTree
    have hbelow := slot_of_get? (childKeys_of_kind .exportAllDeclaration (Node.is_iff.1 hk))
      (by decide) hexported
    obtain rfl : shorthand = false := by
      rw [hcall] at hsame
      rw [Bool.eq_false_iff, ne_eq, sameName_eq_ok (hf _ (.child .refl hbelow)).name hsame]
      rintro ⟨name, -, hc, -⟩
      rw [hno] at hc
      cases hc
    refine .space (importCall_final r.next (lowered_keeps closed_awaits notes_awaits hr hawaits)
      (hfinal.options.trans hrq.options) (hfinal.importFn _ ?_)) (isEmpty_of_toTree ht) hkeyed
    rw [hq]
    exact r.state.importFn_useImport
  | importAll ho | importNames ho | exportDefaultName ho | exportDefaultValue ho | exportFrom ho
  | exportDeclared ho | exportLocals ho => exact (is_unique hm ho (by decide)).elim

lemma Lowers.declaration {c d : Node} (h : Lowers c p d q)
    (hc : ∀ kind ∈ moduleKinds, c.is kind = false) {kind : String} (hmem : kind ∈ declarationKinds)
    (hd : d.is kind = true) :
    c.is kind = true ∧ ((c.get "id").isNull = true → (d.get "id").isNull = true) := by
  obtain ⟨m, r, hr, hs, -⟩ := h.step
  cases hs with
  | still => exact ⟨hr.is kind ▸ hd, hr.isNull⟩
  | operator _ _ hrew =>
    obtain ⟨other, homem, ho⟩ := hrew.kind
    rw [Node.is_of_kind ho, beq_iff_eq] at hd
    have hall : ∀ kind ∈ declarationKinds, kind ∉ operatorResults := by decide
    exact absurd (hd ▸ homem) (hall _ hmem)
  | declaration hdecl =>
    obtain ⟨other, homem, ho⟩ := hdecl.is_module
    rw [hr.is, hc other homem] at ho
    cases ho

lemma among_declarationKinds (h : kind ∈ declarationKinds) :
    (str kind).among ["FunctionDeclaration", "ClassDeclaration"] = .ok true := by
  rcases List.mem_pair.1 h with rfl | rfl <;> rfl

lemma delivers_defaultName (h : Lowers b p b' q) (hflat : Flat b) {id : Node} {name : String}
    (hk : b.is "ExportDefaultDeclaration" = true) (hc : b.get? "declaration" = some c.toTree)
    (hmem : kind ∈ declarationKinds) (hkind : c.is kind = true) (hid : c.get? "id" = some id.toTree)
    (hname : Names id name) : Delivers (.defaultName c name) p b' q := by
  obtain ⟨m, r, t, k, s, hr, hm, hexports, hpr, hrq, hdecl, ht, hq⟩ :=
    h.declared hflat (by decide) hk
  obtain ⟨d, a, e, hget, hv, hpa, her⟩ := hr.field carries_lowers
    (childKeys_of_kind .exportDefaultDeclaration (Node.is_iff.1 hk)) (by decide) hc
  obtain ⟨hdid, hdkind, hdname⟩ : d.id = c.id ∧ d.kind = c.kind ∧ d.get? "id" = some id.toTree := by
    have hkept (K : Kind) (hK : c.is K.name = true) (hd : K.name ∉ dissolved)
        (hkey : "id" ∈ K.children) :
        d.id = c.id ∧ d.kind = c.kind ∧ d.get? "id" = some id.toTree := by
      obtain ⟨r', hr', -⟩ := hv.renewed_of_kind K hK hd
      exact ⟨hr'.id, hr'.kind, lowered_name hr' K hK hkey (by decide) hname.1 hid⟩
    rcases List.mem_pair.1 hmem with rfl | rfl
    · exact hkept .functionDeclaration hkind (by decide) (by decide)
    · exact hkept .classDeclaration hkind (by decide) (by decide)
  have htid : d.toTree.get "id" = .ok id.toTree := by
    change ok (d.get "id") = _
    rw [Node.get, hdname, getD_some]
  cases hdecl with
  | exportDefaultName _ hs hgid hgkind _ _ hgname =>
    obtain rfl := some.inj (hget.symm.trans hs)
    obtain rfl := ok.inj (htid.symm.trans hgid)
    obtain rfl : str name = _ := ok.inj ((attr_eq_ok.2 hname.2).symm.trans hgname)
    obtain rfl := Node.toTree_injective ht
    refine delivers_of_lowers _ h (by rw [hq, record, hexports])
      fun start final ps hstart hfinal hps => ?_
    obtain ⟨u, us, hu, hnil, rfl⟩ := List.forall₂_cons_left_iff.1 hps
    cases hnil
    exact .defaultName ⟨a, e, hstart.trans hpa, hv, (her.trans hrq).trans hfinal⟩ hdid hdkind
      hu.keyedName
  | exportDefaultValue _ hs hgid hgkind hnamed hnull =>
    obtain rfl := some.inj (hget.symm.trans hs)
    obtain rfl := ok.inj (htid.symm.trans hgid)
    obtain rfl : d.kind = _ := ok.inj hgkind
    rw [hdkind, Node.is_iff.1 hkind, among_declarationKinds hmem] at hnamed
    cases hnull (ok.inj hnamed).symm
  | importAll ho | importNames ho | exportAll ho | exportFrom ho | exportDeclared ho
  | exportLocals ho => exact (is_unique hm ho (by decide)).elim

lemma delivers_defaultValue (h : Lowers b p b' q) (hflat : Flat b)
    (hk : b.is "ExportDefaultDeclaration" = true) (hc : b.get? "declaration" = some c.toTree)
    (hno : (∃ kind ∈ declarationKinds, c.is kind = true) → (c.get "id").isNull = true) :
    Delivers (.defaultValue c) p b' q := by
  obtain ⟨m, r, t, k, s, hr, hm, hexports, hpr, hrq, hdecl, ht, hq⟩ :=
    h.declared hflat (by decide) hk
  have hkeys := childKeys_of_kind .exportDefaultDeclaration (Node.is_iff.1 hk)
  obtain ⟨d, a, e, hget, hv, hpa, her⟩ := hr.field carries_lowers hkeys (by decide) hc
  cases hdecl with
  | exportDefaultName _ hs hgid hgkind hamong hnull =>
    obtain rfl := some.inj (hget.symm.trans hs)
    obtain rfl : d.kind = _ := ok.inj hgkind
    obtain rfl : d.get "id" = _ := ok.inj hgid
    obtain ⟨kind, hkind, hmem⟩ := among_eq_true hamong
    have hplain := hflat _ (slot_of_get? hkeys (by decide) hc) c .refl
    obtain ⟨hck, hid⟩ := hv.declaration hplain hmem (Node.is_iff.2 hkind)
    rw [hid (hno ⟨kind, hmem, hck⟩)] at hnull
    cases hnull
  | exportDefaultValue _ hs =>
    obtain rfl := some.inj (hget.symm.trans hs)
    refine delivers_of_lowers _ h (by rw [hq, record, hexports])
      fun start final ps hstart hfinal hps => ?_
    obtain ⟨u, us, hu, hnil, rfl⟩ := List.forall₂_cons_left_iff.1 hps
    cases hnil
    obtain ⟨shorthand, hkeyed, hsame⟩ := Exported.keyed (x := ⟨_, _, [("name", .str "default")]⟩) hu
    refine .defaultValue ⟨a, e, hstart.trans hpa, hv, (her.trans hrq).trans hfinal⟩
      (isEmpty_of_toTree ht) hkeyed ?_
    rw [sameName_eq_ok (fun _ => ⟨"default", rfl⟩) hsame]
    constructor
    · rintro ⟨name, hkey, hvalue⟩
      rwa [names_identifierOf.1 hkey]
    · intro hvalue
      exact ⟨"default", names_identifierOf.2 rfl, hvalue⟩
  | importAll ho | importNames ho | exportAll ho | exportFrom ho | exportDeclared ho
  | exportLocals ho => exact (is_unique hm ho (by decide)).elim

lemma Offers.delivers {o : Offer} (ho : Offers b o) (h : Lowers b p b' q) (hflat : Flat b)
    (hf : FormedBelow b) (htaken : ∀ name, Mentioned b name → name ∈ p.state.names.taken)
    (hawaits : Awaits p) : Delivers o p b' q := by
  cases ho with
  | nothing hno => exact delivers_nothing h hflat hno
  | declaration hk hsource hc hd hx => exact delivers_declaration h hflat hf hk hsource hc hd hx
  | locals hk hsource hnone hl => exact delivers_locals h hflat hf hk hsource hnone hl
  | passed hk hsource hliteral hl =>
    exact delivers_passed h hflat hf htaken hawaits hk hsource hliteral hl
  | defaultName hk hc hmem hkind hid hname =>
    exact delivers_defaultName h hflat hk hc hmem hkind hid hname
  | defaultValue hk hc hno => exact delivers_defaultValue h hflat hk hc hno
  | all hk hsource hliteral hnone => exact delivers_all h hflat hawaits hk hsource hliteral hnone
  | space hk hsource hliteral hexported hname =>
    exact delivers_space h hflat hf hawaits hk hsource hliteral hexported hname

end Statements

lemma forall₂_append_left {α β : Type} {R : α → β → Prop} {xs ys : List α} {zs : List β}
    (h : List.Forall₂ R (xs ++ ys) zs) :
    ∃ us vs, zs = us ++ vs ∧ List.Forall₂ R xs us ∧ List.Forall₂ R ys vs := by
  induction xs generalizing zs with
  | nil => exact ⟨[], zs, rfl, .nil, h⟩
  | cons x xs ih =>
    obtain ⟨z, rest, hz, hrest, rfl⟩ := List.forall₂_cons_left_iff.1 h
    obtain ⟨us, vs, rfl, hus, hvs⟩ := ih hrest
    exact ⟨z :: us, vs, rfl, .cons hz hus, hvs⟩

lemma fulfilled_of_chain {bs bs' : List Node} {os : List Offer}
    (h : Chain Lowers bs p bs' q) (ho : List.Forall₂ Offers bs os) (hflat : ∀ b ∈ bs, Flat b)
    (hf : ∀ b ∈ bs, FormedBelow b)
    (htaken : ∀ b ∈ bs, ∀ name, Mentioned b name → name ∈ p.state.names.taken)
    (hawaits : Awaits p) : ∃ records names, q.state.exports = p.state.exports ++ records ∧
      (∀ source used, SetAside source used p.state → SetAside source (used ++ names) q.state) ∧
      Extends p q ∧ ∀ start final ps, Extends start p → Extends q final →
        List.Forall₂ (Exported 0) records ps → Fulfilled start final os bs' ps names := by
  induction h generalizing os with
  | nil =>
    cases ho
    refine ⟨[], [], by simp, fun _ _ hs => by rwa [List.append_nil], .refl _,
      fun start final ps _ _ hps => ?_⟩
    cases hps
    exact .nil
  | @cons b b' bs bs' p q r hb hrest ih =>
    obtain ⟨o, os', hob, hos, rfl⟩ := List.forall₂_cons_left_iff.1 ho
    obtain ⟨records, names, hrecords, haside, hall⟩ := hob.delivers hb (hflat b (by simp))
      (hf b (by simp)) (htaken b (by simp)) hawaits
    obtain ⟨records', names', hrecords', haside', hqr, hall'⟩ := ih hos
      (fun c hc => hflat c (by simp [hc])) (fun c hc => hf c (by simp [hc]))
      (fun c hc name hn => hb.extends.taken.subset (htaken c (by simp [hc]) name hn))
      (hb.keeps closed_awaits notes_awaits hawaits)
    refine ⟨records ++ records', names ++ names', ?_, fun source used hs => ?_,
      hb.extends.trans hqr, fun start final ps hstart hfinal hps => ?_⟩
    · rw [hrecords', hrecords, List.append_assoc]
    · rw [← List.append_assoc]
      exact haside' source _ (haside source used hs)
    · obtain ⟨us, vs, rfl, hus, hvs⟩ := forall₂_append_left hps
      exact .cons (hall start final us hstart (hqr.trans hfinal) hus)
        (hall' start final vs (hstart.trans hb.extends) hfinal hvs)

lemma awaits_ofTree {t : Tree} {options : Options} {s : State} {next : Nat}
    (h : ofTree t options = .ok s) : Awaits ⟨next, [], s⟩ := by
  obtain ⟨ts, -, hs⟩ := except_bind_eq_ok.1 h
  obtain rfl := ok.inj hs
  rfl

/-- The object that a program returns has exactly the properties that its export statements offer,
in the order of the statements, and each statement has become what makes its offer good. The
temporaries are all different, and no name of the program or of a helper is among them. -/
theorem exports_complete_in_order (d : Json) (k : Nat) {root : Node}
    (hroot : (Tree.ofData d k).1 = root.toTree) (hprogram : root.is "Program" = true)
    {bs : List Node} (hbody : root.get? "body" = some (.list (bs.map Node.toTree)))
    (hflat : ∀ b ∈ bs, Flat b) (hf : FormedBelow root) {offers : List Offer}
    (ho : List.Forall₂ Offers bs offers) {options : Options} (hc : options.customRules = [])
    (hreturns : options.returnsExports = true) {next : Nat} {s : State}
    (h : (run options root.toTree next).outcome = .ok s) :
    ∃ (start : State) (block : Node) (bs' : List Node) (i j : Nat) (properties : List Tree)
      (temporaries : List String), State.ofTree root.toTree options = .ok start ∧
      (run options root.toTree next).tree = block.toTree ∧ block.is "BlockStatement" = true ∧
      block.get? "body" = some (.list (bs'.map Node.toTree ++
        [(Build.ret (Build.objectExpression properties i).1 j).1])) ∧
      Fulfilled ⟨next, [], start⟩
        ⟨(run options root.toTree next).next, (run options root.toTree next).notes, s⟩
        offers bs' properties temporaries ∧
      temporaries.Nodup ∧ ∀ name ∈ temporaries, ¬Mentioned root name ∧ name ∉ s.helpers := by
  have hl := d.lawful hroot
  obtain ⟨start, block, q, hs, hv, rfl, hrun⟩ := run_eq_ok hc hl h
  obtain ⟨hoptions, hexports, -, hhelpers, -⟩ := ofTree_eq_ok hs
  have hkeys := childKeys_of_kind .program (Node.is_iff.1 hprogram)
  have hbelow {b : Node} (hb : b ∈ bs) : Below root b := by
    obtain ⟨i, hi⟩ := List.getElem?_of_mem (List.mem_map_of_mem (f := Node.toTree) hb)
    exact .child .refl (slot_of_item hkeys (by decide) hbody hi)
  -- The statements are visited one after the other, and then the program is closed.
  obtain ⟨m, r, hr, hstepped, hfinal⟩ := lowered_step hl hv
  obtain ⟨bs', hbody', hchain⟩ := hr.chain hkeys hbody
  obtain ⟨records, temporaries, hrecords, haside, hstart, hall⟩ := fulfilled_of_chain hchain ho
    hflat (fun b hb k hk => hf k ((hbelow hb).trans hk))
    (fun b hb name hn => by
      obtain ⟨n, hn, hname⟩ := hn
      exact taken_ofTree hs ⟨n, (hbelow hb).trans hn, hname⟩) (awaits_ofTree hs)
  have hm : m.is "Program" = true := by rwa [Node.is, hr.kind]
  obtain ⟨next', hcloses, rfl⟩ := hstepped.closes rfl hm
  cases hcloses with
  | plain hno =>
    rw [hstart.options, hoptions, hreturns] at hno
    cases hno
  | @exports body t _ _ hget hreturned =>
    obtain ⟨-, i, j, properties, -, -, hps, rfl⟩ :=
      supplies_returned 0 _ _ _ _ (Nat.zero_le _) hreturned
    obtain rfl : bs'.map Node.toTree = body := by simpa [hbody'] using hget
    rw [hrecords, hexports, List.nil_append] at hps
    have hnames := haside start.names.taken []
      ⟨.nil, fun _ => id, by simp [hhelpers], by simp, by simp⟩
    have hfresh (name : String) (hname : name ∈ temporaries) :
        ¬Mentioned root name ∧ name ∉ r.state.helpers := by
      obtain ⟨hhelper, hsource⟩ := hnames.apart name hname
      exact ⟨fun hm => hsource (taken_ofTree hs hm), hhelper⟩
    rw [hrun]
    exact ⟨start, _, bs', i, j, properties, temporaries, hs, rfl, rfl,
      Node.get?_of_get (get_appended ..) (by simp), hall _ _ _ (.refl _) hfinal hps, hnames.nodup,
      hfresh⟩

def assorted : Data :=
  let name (s : String) : Data := .object [("type", .str "Identifier"), ("name", .str s)]
  let text (s : String) : Data := .object [("type", .str "Literal"), ("value", .str s)]
  let specifier (s t : String) : Data :=
    .object [("type", .str "ExportSpecifier"), ("local", name s), ("exported", name t)]
  let pattern : Data := .object [("type", .str "ArrayPattern"), ("elements", .list [
    .object [("type", .str "AssignmentPattern"), ("left", name "a"), ("right",
      .object [("type", .str "UnaryExpression"), ("operator", .str "-"), ("argument", name "x")])],
    .null,
    .object [("type", .str "ObjectPattern"), ("properties", .list [
      .object [("type", .str "Property"), ("key", name "k"), ("value", name "b")],
      .object [("type", .str "RestElement"), ("argument", name "c")]])]])]
  .object [("type", .str "Program"), ("body", .list [
    .object [("type", .str "ExportNamedDeclaration"), ("declaration",
      .object [("type", .str "VariableDeclaration"), ("kind", .str "const"), ("declarations", .list [
        .object [("type", .str "VariableDeclarator"), ("id", pattern), ("init", name "y")]])]),
      ("specifiers", .list []), ("source", .null)],
    .object [("type", .str "ExportNamedDeclaration"), ("declaration", .null),
      ("specifiers", .list [specifier "a" "q", specifier "b" "b"]), ("source", .null)],
    .object [("type", .str "ExportNamedDeclaration"), ("declaration", .null),
      ("specifiers", .list [specifier "u" "v"]), ("source", text "m")],
    .object [("type", .str "ExportDefaultDeclaration"), ("declaration",
      .object [("type", .str "FunctionDeclaration"), ("id", name "g"), ("params", .list []),
        ("body", .object [("type", .str "BlockStatement"), ("body", .list [])])])],
    .object [("type", .str "ExportAllDeclaration"), ("source", text "m"), ("exported", .null)]])]

def assortedRoot : Node := ((ofData assorted 0).1.node?).getD ⟨0, .null, []⟩

def statementAt (i : Nat) : Node := ((partNodes (assortedRoot.get "body"))[i]?).getD assortedRoot

def childOf (n : Node) (key : String) : Node := ((n.get key).node?).getD n

def specifiersOf (n : Node) : List Specifier :=
  (partNodes (n.get "specifiers")).map fun c => ⟨childOf c "local", childOf c "exported"⟩

def assortedOffers : List Offer :=
  [.declaration (childOf (statementAt 0) "declaration") ["a", "b", "c"],
    .locals (specifiersOf (statementAt 1)),
    .passed (childOf (statementAt 2) "source") (specifiersOf (statementAt 2)),
    .defaultName (childOf (statementAt 3) "declaration") "g",
    .all (childOf (statementAt 4) "source")]

lemma offers_assorted :
    List.Forall₂ Offers ((List.range 5).map statementAt) assortedOffers := by
  have hname {n : Node} (h : n.is "Identifier" = true) : IsName n := ⟨"Identifier", by decide, h⟩
  have hspecifiers : Lists (statementAt 1) (specifiersOf (statementAt 1)) := by
    refine ⟨partNodes ((statementAt 1).get "specifiers"), rfl, .cons ?_ (.cons ?_ .nil)⟩
    · exact ⟨rfl, rfl, rfl, hname rfl, hname rfl⟩
    · exact ⟨rfl, rfl, rfl, hname rfl, hname rfl⟩
  have hpassed : Lists (statementAt 2) (specifiersOf (statementAt 2)) := by
    refine ⟨partNodes ((statementAt 2).get "specifiers"), rfl, .cons ?_ .nil⟩
    exact ⟨rfl, rfl, rfl, hname rfl, hname rfl⟩
  have hid : Names (childOf (childOf (statementAt 3) "declaration") "id") "g" := ⟨rfl, rfl⟩
  have hkind : "FunctionDeclaration" ∈ declarationKinds := by decide
  exact .cons (.declaration rfl rfl rfl (declaredNames_eq_ok_iff.1 rfl)
      (.cons ⟨_, rfl, rfl, rfl⟩ (.cons ⟨_, rfl, rfl, rfl⟩ (.cons ⟨_, rfl, rfl, rfl⟩ .nil))))
    (.cons (.locals rfl rfl rfl hspecifiers) (.cons (.passed rfl rfl rfl hpassed)
      (.cons (.defaultName rfl rfl hkind rfl rfl hid) (.cons (.all rfl rfl rfl rfl) .nil))))

theorem exports_complete_in_order_assorted : ∃ s,
    (run { Options.default with importer := some .coroutine } (ofData assorted 0).1
      80).outcome = .ok s ∧ s.exports.length = 8 ∧
    ∃ start final block bs' i j properties temporaries, final.state = s ∧
      (run { Options.default with importer := some .coroutine } (ofData assorted 0).1
        80).tree = Node.toTree block ∧
      block.get? "body" = some (.list (bs'.map Node.toTree ++
        [(Build.ret (Build.objectExpression properties i).1 j).1])) ∧
      Fulfilled start final assortedOffers bs' properties temporaries ∧ temporaries.Nodup := by
  have hcount : ((run { Options.default with importer := some .coroutine }
      (ofData assorted 0).1 80).outcome.toOption.map
        fun s => s.exports.length) = some 8 := by decide +kernel
  have hformed : Every Formed (ofData assorted 0).1 := by decide +kernel
  have hflat : ∀ b ∈ (List.range 5).map statementAt, ∀ s ∈ slots b, Every
      (fun k => ∀ kind ∈ moduleKinds, k.is kind = false) s.child.toTree := by decide +kernel
  have hroot : (ofData assorted 0).1 = assortedRoot.toTree := rfl
  have hbody : assortedRoot.get? "body" =
      some (.list (((List.range 5).map statementAt).map Node.toTree)) := rfl
  cases hr : (run { Options.default with importer := some .coroutine }
      (ofData assorted 0).1 80).outcome with
  | error e => simp [hr, Except.toOption] at hcount
  | ok s =>
    obtain ⟨start, block, bs', i, j, properties, temporaries, -, htree, -, hblock, hall, hnodup, -⟩ :=
      exports_complete_in_order ⟨assorted, by decide +kernel⟩ 0 hroot rfl hbody
        (fun b hb u hu k hk => (hflat b hb u hu).reaches ⟨_, rfl, hk⟩)
        (fun n hn => hformed.reaches ⟨_, hroot, hn⟩) offers_assorted rfl rfl hr
    exact ⟨s, rfl, by simpa [hr, Except.toOption] using hcount, _, _, block, bs', i, j, properties,
      temporaries, rfl, htree, hblock, hall, hnodup⟩

end Overload.Lowering
