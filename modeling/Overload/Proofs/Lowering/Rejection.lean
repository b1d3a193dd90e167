import Overload.Proofs.Lowering.Demands
import Overload.Proofs.Visit.Judging

/-! Which programs are lowered. -/

namespace Overload.Lowering

open Visit List Overload.Tree

variable {options : Options} {n m : Node} {p q : Progress State}

lemma verdict_of_ends {kind : String} {rule : Step Unit} {place : Place} (hk : m.kind = .str kind)
    (hr : Entries.get? kind builtinRules = some [rule]) (hplace : (siteAt place m).Placed)
    (hq : q.state.options = options)
    (he : Ends options m rule (Admissible options n) (Offends options n)) :
    Verdict (Admissible options) (Offends options) [n] (finish builtinRules place m q).outcome := by
  rw [finish_of_rule hk hr]
  refine .single ?_
  rcases he ⟨siteAt place m, q.next, q.notes, q.state⟩ ⟨rfl, hplace, hq⟩ with
    ⟨d, hd, ha⟩ | ⟨fault, d, hd, ho⟩
  · exact .inl ⟨ha, by rw [hd]⟩
  · exact .inr ⟨fault, ho, by rw [hd]⟩

lemma verdict_step {parent : Node} {key : String} {index : Option Nat} (hc : CompleteBelow n)
    (hp : Fit options p) (hr : Renewed Lowers n p m q)
    (hplace : Site.holds parent key index m.id = true) :
    Verdict (Admissible options) (Offends options) [n]
      (finish builtinRules ⟨some parent, key, index⟩ m q).outcome := by
  obtain ⟨kind, hkind⟩ := hc.self.text
  have hmk : m.kind = .str kind := hr.kind.trans hkind
  have hr' : Renewed (Arrives options) n p m q :=
    hr.mono fun s hs _ _ _ h => Lowers.arrives h (hc.child hs).formed
  have hq := hr'.progress carries_arrives hp
  have hdone : ∀ s ∈ slots m, Done options s.child := fun s => done_slot hr' hp
  have hfilled := hc.self.filled.renewed hr
  have hplain (hno : kind ∉ moduleKinds) : Admissible options n :=
    admissible_of_plain (is_other hkind hno)
  cases hrules : Entries.get? kind builtinRules with
  | none =>
    have hall : ∀ kind ∈ moduleKinds, kind ∈ builtinRules.map (·.1) := by decide
    rw [finish_of_none hmk hrules]
    refine .single (.inl ⟨hplain fun hmem => ?_, rfl⟩)
    obtain ⟨e, he, rfl⟩ := mem_map.1 (hall kind hmem)
    simpa [hrules] using Entries.isSome_get? he
  | some rules =>
    obtain ⟨rule, rfl⟩ := get?_builtinRules hrules
    have hplaced : (siteAt ⟨some parent, key, index⟩ m).Placed := by
      rintro _ ⟨⟩
      exact hplace
    have hends := verdict_of_ends (n := n) hmk hrules hplaced hq.same
    have hmem : (kind, [rule]) ∈ builtinRules := Entries.mem_of_get? hrules
    simp only [builtinRules, operatorRules, moduleRules, generalRules, cons_append,
      nil_append, mem_cons, Prod.mk.injEq, cons.injEq, and_true, not_mem_nil,
      or_false] at hmem
    have hn : n.is kind = true := Node.is_iff.2 hkind
    have hm : m.is kind = true := Node.is_iff.2 hmk
    have hbinary (K : Kind) (hK : m.is K.name = true)
        (hop : ⟨K, "operator", .text⟩ ∈ requirements) (hleft : ⟨K, "left", .node⟩ ∈ requirements)
        (hright : ⟨K, "right", .node⟩ ∈ requirements) :
        Ends options m binaryRule True (Offends options n) := by
      obtain ⟨token, hop, -⟩ := fits_text (hfilled _ hop hK)
      obtain ⟨left, hleft⟩ := fits_node (hfilled _ hleft hK)
      obtain ⟨right, hright⟩ := fits_node (hfilled _ hright hK)
      exact ends_binaryRule hop hleft hright
    rcases hmem with ⟨rfl, rfl⟩ | ⟨rfl, rfl⟩ | ⟨rfl, rfl⟩ | ⟨rfl, rfl⟩ | ⟨rfl, rfl⟩ | ⟨rfl, rfl⟩ |
      ⟨rfl, rfl⟩ | ⟨rfl, rfl⟩ | ⟨rfl, rfl⟩ | ⟨rfl, rfl⟩ | ⟨rfl, rfl⟩ | ⟨rfl, rfl⟩ | ⟨rfl, rfl⟩
    · exact hends ((ends_unaryRule hfilled hm).mono fun _ => hplain (by decide))
    · exact hends ((hbinary .binaryExpression hm (by decide) (by decide) (by decide)).mono fun _ =>
        hplain (by decide))
    · exact hends ((hbinary .logicalExpression hm (by decide) (by decide) (by decide)).mono fun _ =>
        hplain (by decide))
    · exact hends ((ends_updateRule hfilled hm hdone).mono fun _ => hplain (by decide))
    · exact hends ((ends_assignmentRule hfilled hm hdone).mono fun _ => hplain (by decide))
    · exact hends (ends_importRule hc hr hn)
    · exact hends (ends_exportNamedRule hc hr hn)
    · exact hends (ends_exportDefaultRule hc hr hn)
    · exact hends (ends_exportAllRule hc hr hn)
    · rw [finish_of_rule hmk hrules, programRule_child (p := parent) rfl]
      exact .single (.inl ⟨hplain (by decide), rfl⟩)
    · exact hends (ends_noteAwait.mono fun _ => hplain (by decide))
    · exact hends (ends_forOfRule.mono fun _ => hplain (by decide))
    · obtain ⟨name, hname⟩ := (formed_lowered hr hc.formed).name hm
      exact hends ((ends_identifierRule hname).mono fun _ => hplain (by decide))

section Returning

variable {α β : Type}

def Succeeds (f : Making α) (Q : α → Prop) : Prop := ∀ k, ∃ y j, f k = (.ok y, j) ∧ Q y

namespace Succeeds

variable {Q : α → Prop} {R : β → Prop}

lemma bind {f : Making α} {g : α → Making β} (hf : Succeeds f Q)
    (hg : ∀ x, Q x → Succeeds (g x) R) : Succeeds (f >>= g) R := by
  intro k
  obtain ⟨y, j, hy, hQ⟩ := hf k
  obtain ⟨z, l, hz, hR⟩ := hg y hQ j
  exact ⟨z, l, bind_eq_ok.2 ⟨y, j, hy, hz⟩, hR⟩

lemma pure {x : α} (h : Q x) : Succeeds (pure x) Q := fun k => ⟨x, k, rfl, h⟩

lemma making {f : Fresh α} (h : ∀ k, Q (f k).1) : Succeeds (making f) Q :=
  fun k => ⟨(f k).1, (f k).2, rfl, h k⟩

lemma made (f : Fresh α) : Succeeds (Lowering.making f) fun _ => True := making fun _ => trivial

lemma checked {r : Except Fault α} {x : α} (h : r = .ok x) : Succeeds (checked r) (· = x) :=
  fun k => ⟨x, k, h ▸ rfl, rfl⟩

lemma mapM {f : α → Making β} {xs : List α} (h : ∀ x ∈ xs, Succeeds (f x) fun _ => True) :
    Succeeds (xs.mapM f) fun _ => True := by
  induction xs with
  | nil => exact pure trivial
  | cons x xs ih =>
    rw [mapM_cons]
    refine (h x (by simp)).bind fun _ _ => ?_
    exact (ih fun z hz => h z (by simp [hz])).bind fun _ _ => pure trivial

end Succeeds

structure Returnable (e : Export) : Prop where
  declaration : e.declaration.isNode = true
  exported : e.spread = true ∨ e.exported.isNode = true

def Called (n : Node) : Prop := n.is "Identifier" = true → ∃ name, n.get? "name" = some name

lemma Formed.called (h : Formed n) : Called n := by
  intro hn
  obtain ⟨name, hname⟩ := h.name hn
  exact ⟨.str name, hname⟩

lemma sameName_of_called {key value : Node} (hkey : Called key) (hvalue : Called value) :
    ∃ b, sameName key.toTree value.toTree = .ok b := by
  have hkind (n : Node) : n.toTree.kind = .ok n.kind := rfl
  have his (n : Node) : n.kind.isText "Identifier" = n.is "Identifier" := rfl
  simp only [sameName, hkind, his, ok_bind]
  cases hk : key.is "Identifier" with
  | false => exact ⟨_, rfl⟩
  | true =>
    cases hv : value.is "Identifier" with
    | false => exact ⟨_, rfl⟩
    | true =>
      obtain ⟨a, ha⟩ := hkey hk
      obtain ⟨b, hb⟩ := hvalue hv
      rw [show key.toTree.attr "name" = _ from attr_eq_ok.2 ha,
        show value.toTree.attr "name" = _ from attr_eq_ok.2 hb]
      exact ⟨_, rfl⟩

lemma succeeds_exportProperty {e : Export} {value : Node} (hd : e.declaration = value.toTree)
    (hvalue : Called value)
    (hkey : e.spread = true ∨ ∃ key : Node, e.exported = key.toTree ∧ Called key) :
    Succeeds (exportProperty e) fun _ => True := by
  obtain ⟨declaration, exported, spread⟩ := e
  obtain rfl : declaration = value.toTree := hd
  have rest (key : Node) (hkey : Called key) : Succeeds (do
      let shorthand ← checked (sameName key.toTree value.toTree)
      making (Build.property key.toTree value.toTree (.bool shorthand) (.bool false)))
      fun _ => True := by
    obtain ⟨b, hb⟩ := sameName_of_called hkey hvalue
    exact (Succeeds.checked hb).bind fun _ _ => .made _
  unfold exportProperty
  cases spread with
  | true => exact .made _
  | false =>
    obtain ⟨key, hexported, hcalled⟩ := hkey.resolve_left Bool.false_ne_true
    obtain rfl : exported = key.toTree := hexported
    rw [if_neg Bool.false_ne_true, if_neg (by rintro ⟨⟩)]
    split
    · refine (Succeeds.checked (show key.toTree.asNode = .ok key from rfl)).bind ?_
      rintro n rfl
      refine Succeeds.bind (Q := fun t => ∃ k : Node, Called k ∧ t = k.toTree) ?_ ?_
      · exact .making fun k => ⟨{ n with id := k }, hcalled, rfl⟩
      · rintro _ ⟨k, hk, rfl⟩
        exact rest k hk
    · exact rest key hcalled

lemma succeeds_returned {s : State} (h : ∀ e ∈ s.exports, Returnable e)
    (hdone : DoneExports options s) :
    Succeeds (returned s.exports) fun _ => True := by
  refine .bind (.bind (.mapM fun e he => ?_) fun _ _ => .made _) fun _ _ => .made _
  obtain ⟨value, hvalue⟩ := isNode_iff.1 (h e he).declaration
  have hdone := hdone e he
  refine succeeds_exportProperty hvalue ?_ ((h e he).exported.imp_right fun hkey => ?_)
  · exact (parts_toTree.1 (hvalue ▸ hdone.1)).rests.formed.called
  · obtain ⟨key, hkey⟩ := isNode_iff.1 hkey
    exact ⟨key, hkey, (parts_toTree.1 (hkey ▸ hdone.2)).rests.formed.called⟩

end Returning

lemma Recorded.returnable {e : Export} {k : Nat} {s : State} (h : Recorded m k s e)
    (hc : CompleteBelow n) (hr : Renewed Lowers n p m q) : Returnable e := by
  have hfilled := hc.self.filled.renewed hr
  have hfields {xs : List Tree} {x : Tree} (hk : m.is "ExportNamedDeclaration" = true)
      (hs : Specifiers m xs) (hx : x ∈ xs) : ∃ (d bound exported : Node), x = d.toTree ∧
        d.get? "local" = some bound.toTree ∧ d.get? "exported" = some exported.toTree := by
    obtain ⟨ts, hts, hall⟩ := export_specifiers hc hr (hr.is _ ▸ hk)
    rw [Specifiers, Node.get, hts] at hs
    obtain rfl := Except.ok.inj hs
    exact hall x hx
  cases h with
  | names => exact ⟨rfl, .inr rfl⟩
  | bound hk hs hx hbound hexported =>
    obtain ⟨d, bound, exported, rfl, hd, hd'⟩ := hfields hk hs hx
    obtain rfl := Except.ok.inj (hbound.symm.trans (attr_eq_ok.2 hd))
    obtain rfl := Except.ok.inj (hexported.symm.trans (attr_eq_ok.2 hd'))
    exact ⟨rfl, .inr rfl⟩
  | passed hk _ hs hx _ hexported =>
    obtain ⟨d, -, exported, rfl, -, hd'⟩ := hfields hk hs hx
    obtain rfl := Except.ok.inj (hexported.symm.trans (attr_eq_ok.2 hd'))
    exact ⟨rfl, .inr rfl⟩
  | value hk hd =>
    obtain ⟨c, hget⟩ := fits_node (hfilled ⟨.exportDefaultDeclaration, "declaration", .node⟩
      (by decide) hk)
    obtain rfl := Option.some.inj (hd.symm.trans hget)
    exact ⟨rfl, .inr rfl⟩
  | all hk hs =>
    refine ⟨?_, ?_⟩
    · dsimp only [calledImporter]
      split <;> rfl
    · rcases fits_optional (hfilled ⟨.exportAllDeclaration, "exported", .optional⟩ (by decide) hk)
        with hnull | ⟨c, hget⟩
      · exact .inl (by rw [hnull]; rfl)
      · exact .inr (by rw [Node.get, hget]; rfl)

def AllReturnable (p : Progress State) : Prop := ∀ e ∈ p.state.exports, Returnable e

lemma Lowers.allReturnable (h : Lowers n p m q) (hc : CompleteBelow n) (hp : AllReturnable p) :
    AllReturnable q := by
  let P (_ : Node) (p : Progress State) (_ : Node) (q : Progress State) : Prop :=
    AllReturnable p → AllReturnable q
  have hP : Carries P fun p q => AllReturnable p → AllReturnable q :=
    ⟨fun _ hp => hp, fun h h' hp => h' (h hp), fun h => h⟩
  refine h.recursion (P := P) (fun k m p q m' q' hb hr hs _ hp => ?_) hp
  have hq := (hr.mono fun _ _ _ _ _ h => h.2).progress hP hp
  cases hs with
  | still _ _ hsim =>
    rw [AllReturnable, hsim]
    exact hq
  | operator _ _ hrew =>
    rw [AllReturnable, hrew.exports]
    exact hq
  | declaration hd =>
    intro e he
    refine (hd.adds.mem he).elim (hq e) fun hrec => ?_
    exact hrec.returnable (fun c hc' => hc c (hb.trans hc')) (hr.mono fun _ _ _ _ _ h => h.1)

lemma finish_program (hc : CompleteBelow n) (hk : n.is "Program" = true)
    (hr : Renewed Lowers n p m q) (hq : Fit options q) (hready : AllReturnable q) :
    (finish builtinRules ⟨none, "", none⟩ m q).outcome = .ok () := by
  obtain ⟨-, ds, -, hds, -⟩ := hc.items hr .program hk "body" (by decide) (by decide)
  have hbody : (asBlock m).attr "body" = .ok (.list (ds.map Node.toTree)) := by
    refine attr_eq_ok.2 (Eq.trans ?_ hds)
    simp [asBlock, Node.get?, Node.set, Node.erase, Entries.get?_erase_of_ne]
  have hrule : Entries.get? "Program" builtinRules = some [programRule] := by
    simp [builtinRules, operatorRules, moduleRules, generalRules, Entries.get?]
  rw [finish_of_rule (hr.kind.trans (Node.is_iff.1 hk)) hrule, programRule_root rfl]
  split
  · obtain ⟨t, j, ht, -⟩ := succeeds_returned hready hq.exports q.next
    rw [closeProgram_eq]
    dsimp only [siteAt]
    rw [hbody]
    dsimp only
    rw [ht]
  · rfl

lemma CompleteBelow.ofTree (h : CompleteBelow n) (hl : Lawful n) (options : Options) :
    ∃ s, State.ofTree n.toTree options = .ok s := by
  refine ofTree_of_formed (fun m hb => ?_) options
  obtain ⟨keys, hk⟩ := (h m hb).childKeys
  exact ⟨⟨keys, hk, (hl m hb keys hk).2⟩, (h m hb).formed⟩

lemma visit_program {root : Node} (hl : Lawful root) (hc : CompleteBelow root)
    (hk : root.is "Program" = true) (hfit : Fit options p) (hready : AllReturnable p) :
    Verdict (Admissible options) (Offends options) (postorder root)
      (visit builtinRules root ⟨none, "", none⟩ p).outcome := by
  let I (p : Progress State) : Prop := Fit options p ∧ AllReturnable p
  have hbelow {n : Node} (hb : Below root n) : CompleteBelow n := fun k hk => hc k (hb.trans hk)
  have hI : ∀ n, Below root n → ∀ p m q, Lowers n p m q → I p → I q := fun n hb p m q h hp =>
    ⟨((h.arrives (hbelow hb).formed).done hp.1).1, h.allReturnable (hbelow hb) hp.2⟩
  have hj : ∀ s ∈ slots root, Judged builtinRules I (Admissible options) (Offends options) s.child :=
    fun s hs => judged hl (fun n hb => (hbelow hb).self.childKeys) hI
      (fun n m p q parent key index hb hp hr => verdict_step (hbelow hb) hp.1 hr) (.head hs .refl)
  obtain ⟨keys, hkeys⟩ := hc.self.childKeys
  have hchild : ∀ s ∈ slots root, ∀ p m q, Lowers s.child p m q → I p → I q :=
    fun s hs => hI s.child (.head hs .refl)
  rw [postorder_eq]
  rcases visit_cases hkeys hl hj hchild ⟨none, "", none⟩ ⟨hfit, hready⟩ with
    ⟨m, q, hr, hv, hall⟩ | ⟨fault, hv, hfault⟩
  · obtain ⟨hq, hq'⟩ := hr.kept hchild ⟨hfit, hready⟩
    rw [hv, finish_program hc hk hr hq hq']
    refine .append hall (.single (.inl ⟨admissible_of_plain ?_, rfl⟩))
    exact is_other (Node.is_iff.1 hk) (by decide)
  · rw [hv]
    exact hfault.of_error _

/-- A program is lowered just if everything in it is admissible. If it is not, the fault is that of
the first declaration, children first, that is not admissible. -/
theorem lowering_fails_at_first_offender (d : Json) (k : Nat) {root : Node}
    (hroot : (Tree.ofData d k).1 = root.toTree) (hk : root.is "Program" = true)
    (hc : CompleteBelow root) (options : Options) (hcustom : options.customRules = []) (next : Nat) :
    ((∃ s, (run options root.toTree next).outcome = .ok s) ↔
      ∀ n, Below root n → Admissible options n) ∧
    ∀ fault, (run options root.toTree next).outcome = .error fault →
      ∃ before n after, postorder root = before ++ n :: after ∧
        (∀ m ∈ before, Admissible options m) ∧ ¬Admissible options n ∧ Offends options n fault ∧
        (blamesOptions fault = true ↔ Exports n ∧ options.returnsExports = false ∨
          Imports n ∧ options.importer = none ∧
            (n.is "ImportDeclaration" = true → ¬Specified n [])) := by
  have hl := d.lawful hroot
  obtain ⟨start, hstart⟩ := hc.ofTree hl options
  obtain ⟨ho, he, -⟩ := ofTree_eq_ok hstart
  have hfit : Fit options ⟨next, [], start⟩ := ⟨ho, by simp [DoneExports, he]⟩
  have hverdict := visit_program hl hc hk hfit (by simp [AllReturnable, he])
  rw [run_eq hcustom hl hstart]
  generalize visit builtinRules root ⟨none, "", none⟩ ⟨next, [], start⟩ = v at hverdict ⊢
  obtain ⟨outcome, m, q⟩ := v
  cases hverdict with
  | accepted hall =>
    exact ⟨iff_of_true ⟨q.state, rfl⟩ fun n hb => hall n (mem_postorder.2 hb),
      fun _ h => by cases h⟩
  | @rejected before after n fault hsplit hbefore hn =>
    have hb : Below root n := mem_postorder.1 (by simp [hsplit])
    refine ⟨iff_of_false ?_ fun hall => hn.not_admissible (hall n hb), ?_⟩
    · rintro ⟨s, ⟨⟩⟩
    rintro _ ⟨⟩
    exact ⟨before, n, after, hsplit, hbefore, hn.not_admissible, hn, hn.blamesOptions_iff⟩

section Programs

def literally (s : String) : Data := .object [("type", .str "Literal"), ("value", .str s)]

def unsourced : Data :=
  let name (s : String) : Data := .object [("type", .str "Identifier"), ("name", .str s)]
  .object [("type", .str "Program"), ("body", .list [
    .object [("type", .str "ExportNamedDeclaration"), ("declaration",
      .object [("type", .str "VariableDeclaration"), ("kind", .str "const"), ("declarations", .list [
        .object [("type", .str "VariableDeclarator"), ("id",
          .object [("type", .str "ObjectPattern"), ("properties", .list [
            .object [("type", .str "Property"), ("key", name "a"), ("value", name "a")]])]),
          ("init", name "b")]])]), ("specifiers", .list []), ("source", .null)],
    .object [("type", .str "ExportAllDeclaration"), ("exported", .null), ("source", literally "m")],
    .object [("type", .str "ImportDeclaration"), ("specifiers", .list []),
      ("source", literally "m")]])]

theorem lowering_fails_at_first_offender_unsourced : ∃ (root n : Node) (fault : Fault),
    (Tree.ofData unsourced 0).1 = root.toTree ∧
      (run Options.default root.toTree 40).outcome = .error fault ∧ blamesOptions fault = true ∧
      Imports n ∧ ∃ before after, postorder root = before ++ n :: after ∧
        (∀ m ∈ before, Admissible Options.default m) ∧ ¬Admissible Options.default n := by
  obtain ⟨root, hroot⟩ : ∃ root : Node, (ofData unsourced 0).1 = root.toTree := ⟨⟨_, _, _⟩, rfl⟩
  have hevery : Every Complete (ofData unsourced 0).1 := by decide +kernel
  have hblamed : ((run Options.default (ofData unsourced 0).1 40).outcome.mapError
      blamesOptions).map (fun _ => ()) = .error true := by decide +kernel
  have hprogram : (ofData unsourced 0).1.node?.any (·.is "Program") = true := by
    decide +kernel
  rw [hroot] at hevery hblamed hprogram
  obtain ⟨-, hfault⟩ := lowering_fails_at_first_offender ⟨unsourced, by decide +kernel⟩ 0 hroot hprogram
    (fun n hb => hevery.reaches ⟨root, rfl, hb⟩) Options.default rfl 40
  cases ho : (run Options.default root.toTree 40).outcome with
  | ok s => simp [ho, Except.mapError, Except.map] at hblamed
  | error fault =>
    replace hblamed : blamesOptions fault = true := by
      simpa [ho, Except.mapError, Except.map] using hblamed
    obtain ⟨before, n, after, hsplit, hbefore, hnot, -, hblames⟩ := hfault fault ho
    rcases hblames.1 hblamed with ⟨-, hmode⟩ | ⟨himports, -⟩
    · cases hmode
    · exact ⟨root, n, fault, hroot, ho, hblamed, himports, before, after, hsplit, hbefore, hnot⟩

def reexported : Data :=
  .object [("type", .str "Program"), ("body", .list [
    .object [("type", .str "ExportNamedDeclaration"), ("declaration",
      .object [("type", .str "ImportDeclaration"), ("specifiers", .list [
          .object [("type", .str "ImportNamespaceSpecifier"),
            ("local", .object [("type", .str "Identifier"), ("name", .str "m")])]]),
        ("source", literally "m")]), ("specifiers", .list []), ("source", .null)]])]

def reexportedImport : Node :=
  ⟨2, .str "ImportDeclaration", [("specifiers", .list [
      .node 3 (.str "ImportNamespaceSpecifier")
        [("local", .node 4 (.str "Identifier") [("name", .str "m")])]]),
    ("source", .node 5 (.str "Literal") [("value", .str "m")])]⟩

theorem exported_import_is_lowered : ∃ (n : Node) (s : State),
    (Tree.ofData reexported 0).1.Reaches n ∧ n.is "ExportNamedDeclaration" = true ∧
      n.get? "declaration" = some reexportedImport.toTree ∧
      (∀ kind ∈ "VariableDeclaration" :: namedKinds, reexportedImport.is kind = false) ∧
      Tree.Every Complete (Tree.ofData reexported 0).1 ∧
      (run { Options.default with importer := some .function } (ofData reexported 0).1
        20).outcome = .ok s := by
  have hok : (run { Options.default with importer := some .function } (ofData reexported 0).1
      20).outcome.toOption.isSome = true := by decide +kernel
  cases hs : (run { Options.default with importer := some .function } (ofData reexported 0).1
      20).outcome with
  | error e => simp [hs, Except.toOption] at hok
  | ok s =>
    let n : Node := ⟨1, .str "ExportNamedDeclaration", [("declaration", reexportedImport.toTree),
      ("specifiers", .list []), ("source", .null)]⟩
    have hslot : ⟨"body", some 0, n⟩ ∈ slots ⟨0, .str "Program", [("body", .list [n.toTree])]⟩ :=
      slot_of_item (childKeys_of_kind .program rfl) (by decide) rfl rfl
    exact ⟨n, s, ⟨_, rfl, .head hslot .refl⟩, by decide, rfl, by decide, by decide +kernel, rfl⟩

end Programs

end Overload.Lowering
