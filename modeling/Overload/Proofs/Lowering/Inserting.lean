import Overload.Proofs.Lowering.HelperCalls
import Overload.Proofs.Lowering.Ownership

/-! How identifiers get into a program. -/

namespace Overload.Lowering

open Visit Build Node List

variable {root n m m' : Node} {least k j : Nat} {fin s s' : State} {t : Tree} {name : String}
  {b : State.Binding}

section Roles

def CallsBound (fin : State) (z : Node) : Prop :=
  ∃ name b, (name, b) ∈ fin.bindings ∧ Calls fin.options name b z

inductive Serves (root : Node) (least : Nat) (fin : State) (z : Node) (u : Visit.Slot) : Prop
  | copy {name : String} : Names u.child name → Mentioned root name → Serves root least fin z u
  | callee : u.key = "callee" → least ≤ z.id → CallsBound fin z → Serves root least fin z u
  | bound {name : String} {i : Nat} {exported : Tree} : u.key = "value" →
      u.child.toTree = (identifier (.str name) i).1 →
      ⟨(identifier (.str name) (i + 2)).1, exported, false⟩ ∈ fin.exports →
      Serves root least fin z u

structure Inside (use : Node → Visit.Slot → Prop) (least : Nat) (fin : State) (n : Node) : Prop where
  role : ∀ z, Below n z → ∀ u ∈ slots z, u.child.is "Identifier" = true → use z u
  call : ∀ z, Below n z → least ≤ z.id → z.is "CallExpression" = true → CallsBound fin z ∨
    ∃ f : Node, z.get? "callee" = some f.toTree ∧ f.is "ArrowFunctionExpression" = true

def Copies (root n : Node) : Prop :=
  n.is "Identifier" = true → ∃ name, Names n name ∧ Mentioned root name

structure Explained (root : Node) (least : Nat) (fin : State) (n : Node) : Prop where
  inside : Inside (Serves root least fin) least fin n
  own : Copies root n

variable {use : Node → Visit.Slot → Prop}

lemma Inside.mono {other : Node → Visit.Slot → Prop} (h : Inside use least fin n)
    (hu : ∀ z u, use z u → other z u) : Inside other least fin n :=
  ⟨fun z hz u hs hi => hu z u (h.role z hz u hs hi), h.call⟩

lemma Inside.child (h : Inside use least fin n) {u : Visit.Slot} (hu : u ∈ slots n) :
    Inside use least fin u.child :=
  ⟨fun z hz => h.role z (.head hu hz), fun z hz => h.call z (.head hu hz)⟩

lemma Inside.of_slots (hrole : ∀ u ∈ slots n, u.child.is "Identifier" = true → use n u)
    (hcall : least ≤ n.id → n.is "CallExpression" = true → CallsBound fin n ∨
      ∃ f : Node, n.get? "callee" = some f.toTree ∧ f.is "ArrowFunctionExpression" = true)
    (h : ∀ u ∈ slots n, Inside use least fin u.child) : Inside use least fin n where
  role z hz := by
    rcases below_iff.1 hz with rfl | ⟨u, hu, hb⟩
    · exact hrole
    · exact (h u hu).role z hb
  call z hz := by
    rcases below_iff.1 hz with rfl | ⟨u, hu, hb⟩
    · exact hcall
    · exact (h u hu).call z hb

lemma Inside.of_kind (kind : String) (hk : n.is kind = true) (hne : kind ≠ "CallExpression")
    (hrole : ∀ u ∈ slots n, u.child.is "Identifier" = true → use n u)
    (h : ∀ u ∈ slots n, Inside use least fin u.child) : Inside use least fin n :=
  .of_slots hrole (fun _ hc => (is_unique hk hc hne).elim) h

lemma inside_name (kind : String) (hmem : kind ∈ nameKinds) (hk : n.is kind = true) :
    Inside use least fin n := by
  have hleaf (K : Kind) (hk : n.is K.name = true) (hc : K.children = [])
      (hne : K.name ≠ "CallExpression") : Inside use least fin n := by
    have hnone : slots n = [] := by
      rw [slots_of_childKeys (childKeys_of_kind K (is_iff.1 hk)), hc]
      rfl
    exact .of_kind K.name hk hne (by simp [hnone]) (by simp [hnone])
  rcases mem_pair.1 hmem with rfl | rfl
  · exact hleaf .identifier hk rfl (by decide)
  · exact hleaf .literal hk rfl (by decide)

lemma Explained.role {u : Visit.Slot} {z : Node} (h : Explained root least fin u.child)
    (hu : u.child.is "Identifier" = true) : Serves root least fin z u := by
  obtain ⟨name, hname, hm⟩ := h.own hu
  exact .copy hname hm

lemma explained_of_kind (kind : String) (hk : n.is kind = true) (hid : kind ≠ "Identifier")
    (h : Inside (Serves root least fin) least fin n) : Explained root least fin n :=
  ⟨h, fun hi => (is_unique hk hi hid).elim⟩

lemma explained_of_slots (kind : String) (hk : n.is kind = true)
    (hne : kind ≠ "Identifier" ∧ kind ≠ "CallExpression")
    (h : ∀ u ∈ slots n, Explained root least fin u.child) : Explained root least fin n :=
  explained_of_kind kind hk hne.1 (.of_kind kind hk hne.2 (fun u hu => (h u hu).role) fun u hu =>
    (h u hu).inside)

lemma grows_explained (k : Nat) : Grows k (Copied root) (Parts (Explained root least fin)) := by
  refine grows_of_slots fun n _ _ hm hcall h => ?_
  have hother {K : Kind} (hk : n.kind = .str K.name) (hne : K.name ≠ "Identifier") :
      Explained root least fin n := by
    refine explained_of_slots K.name (is_iff.2 hk) ⟨hne, fun he => ?_⟩ h
    have := hcall "CallExpression" (by decide)
    rw [← he, is_iff.2 hk] at this
    cases this
  have hplain : ∀ K ∈ plainKinds ++ listKinds.map (·.1), K.name ≠ "Identifier" := by decide
  cases hm with
  | plain K hK => exact hother rfl (hplain K (mem_append_left _ hK))
  | list K key kind hK =>
    exact hother rfl (hplain K (mem_append_right _ (mem_map_of_mem (f := (·.1)) hK)))
  | identifier hname =>
    obtain ⟨text, rfl, hmentioned⟩ := hname
    exact ⟨inside_name "Identifier" (by decide) rfl, fun _ => ⟨text, ⟨rfl, rfl⟩, hmentioned⟩⟩
  | assignment => exact hother (K := .assignmentExpression) rfl (by decide)

lemma explained_callTo {arguments : List Tree} (hb : (name, b) ∈ fin.bindings)
    (ht : Takes fin.options b arguments) (i : Nat) (hj : least ≤ j)
    (ha : ∀ t ∈ arguments, Parts (Explained root least fin) t) :
    Explained root least fin (callTo name i j arguments) := by
  have hcalls : CallsBound fin (callTo name i j arguments) := ⟨name, b, hb, calls_callTo ht i j⟩
  have hslot (u : Visit.Slot) (hu : u ∈ slots (callTo name i j arguments)) :
      u.key = "callee" ∧ Inside (Serves root least fin) least fin u.child ∨
        Explained root least fin u.child := by
    have hkey := ((mem_slots_iff (childKeys_of_kind .callExpression rfl)).1 hu).1
    have hpart := part_of_slot hu
    rcases mem_pair.1 hkey with hkey | hkey
    · refine .inl ⟨hkey, ?_⟩
      rw [hkey] at hpart
      exact parts_node.2 (inside_name "Identifier" (by decide) rfl) u.child hpart
    · rw [hkey] at hpart
      exact .inr (parts_items ha u.child hpart)
  refine explained_of_kind "CallExpression" rfl (by decide)
    (.of_slots (fun u hu hi => ?_) (fun _ _ => .inl hcalls) fun u hu => ?_)
  · rcases hslot u hu with ⟨hkey, -⟩ | h
    · exact .callee hkey hj hcalls
    · exact h.role hi
  · exact (hslot u hu).elim (·.2) (·.inside)

lemma explained_await {i : Nat} (h : Parts (Explained root least fin) t) :
    Parts (Explained root least fin) (await t i).1 := by
  refine parts_node.2 (explained_of_slots "AwaitExpression" rfl (by decide) fun _ =>
    slot_of_parts ?_)
  simpa using h

lemma explained_settled {i : Nat} {body : List Tree} {isAsync : Bool}
    (h : Parts (Explained root least fin) (block body i).1) :
    Parts (Explained root least fin) (settled i body isAsync) := by
  have harrow (isAsync : Bool) : Explained root least fin (arrowOf i body isAsync) :=
    explained_of_slots "ArrowFunctionExpression" rfl (by decide) fun _ => child_of_arrow h
  have hcall (isAsync : Bool) : Explained root least fin (callOf i body isAsync) := by
    refine explained_of_kind "CallExpression" rfl (by decide) (.of_slots (fun u hu => ?_)
      (fun _ _ => .inr ⟨arrowOf i body isAsync, rfl, rfl⟩) fun u hu => ?_)
    · exact (child_of_call (P := Explained root least fin) (harrow isAsync) hu).role
    · exact (child_of_call (P := Explained root least fin) (harrow isAsync) hu).inside
  rw [settled_eq]
  cases isAsync with
  | false => exact parts_toTree.2 (hcall false)
  | true => exact explained_await (parts_toTree.2 (hcall true))

lemma explained_bindingOf {bound exported : Tree} {i : Nat}
    (he : ⟨(identifier (.str name) (i + 2)).1, exported, false⟩ ∈ fin.exports)
    (hb : Parts (Explained root least fin) bound) :
    Explained root least fin (bindingOf bound name i) := by
  have hslot (u : Visit.Slot) (hu : u ∈ slots (bindingOf bound name i)) :
      u.key = "value" ∧ u.child = ⟨i, .str "Identifier", [("name", .str name)]⟩ ∨
        Explained root least fin u.child := by
    have hkey := ((mem_slots_iff (childKeys_of_kind .property rfl)).1 hu).1
    have hpart := part_of_slot hu
    rcases mem_pair.1 hkey with hkey | hkey
    · rw [hkey] at hpart
      exact .inr (hb u.child hpart)
    · refine .inl ⟨hkey, ?_⟩
      rw [hkey] at hpart
      have hself : Parts (· = ⟨i, .str "Identifier", [("name", .str name)]⟩)
          (identifier (.str name) i).1 := parts_node.2 rfl
      exact hself u.child hpart
  have hk : (bindingOf bound name i).is "Property" = true := rfl
  refine explained_of_kind "Property" hk (by decide)
    (.of_kind "Property" hk (by decide) (fun u hu hi => ?_) fun u hu => ?_)
  · rcases hslot u hu with ⟨hkey, hc⟩ | h
    · exact .bound hkey (congrArg toTree hc) he
    · exact h.role hi
  · rcases hslot u hu with ⟨-, hc⟩ | h
    · exact inside_name "Identifier" (by decide) (by rw [hc]; rfl)
    · exact h.inside

lemma assembles_explained {p q final : Progress State} (hq : Extends q final) (hk : least ≤ k) :
    Assembles p.state q.state k (Copied root) (Parts (Explained root least final.state)) where
  grows := grows_explained k
  unary i token argument hi hfn htoken ha := by
    have hbound := mem_bindings.2 (.inl ⟨hq.unaryFn _ hfn, rfl⟩)
    refine parts_node.2 (explained_callTo hbound (takes_unary _ htoken (i + 1)) i (by omega) ?_)
    simp only [forall_mem_cons]
    exact ⟨(grows_explained k).literal ((grows_explained k).token htoken) (by omega), ha, by simp⟩
  binary i left token right hi hfn htoken hl hr := by
    have hbound := mem_bindings.2 (.inr (.inl ⟨hq.binaryFn _ hfn, rfl⟩))
    refine parts_node.2 (explained_callTo hbound (takes_binary _ htoken (i + 1)) i (by omega) ?_)
    simp only [forall_mem_cons]
    exact ⟨hl, (grows_explained k).literal ((grows_explained k).token htoken) (by omega), hr, by simp⟩
  importer i source hi hfn _ hsource := by
    have hbound := mem_bindings.2 (.inr (.inr ⟨hq.importFn _ hfn, rfl⟩))
    have hcall : Parts (Explained root least final.state)
        (callTo (p.state.use .importer).1 i (i + 1) [source]).toTree :=
      parts_toTree.2 (explained_callTo hbound .importer i (by omega)
        (forall_mem_singleton.2 hsource))
    unfold calledImporter
    split
    · exact explained_await hcall
    · exact hcall
  settled i body isAsync _ hb _ _ := explained_settled hb
  passed i bound exported name _ _ he hb :=
    parts_node.2 (explained_bindingOf (hq.exports.subset he) hb)

end Roles

section Exports

def IsKey (root n : Node) : Prop :=
  (∃ kind ∈ nameKinds, n.is kind = true) ∧ (n.is "Identifier" = true →
    ∃ name, Names n name ∧ (Mentioned root name ∨ name = "default"))

structure Accounted (root : Node) (least : Nat) (fin : State) (e : Export) : Prop where
  value : Parts (Inside (Serves root least fin) least fin) e.declaration
  title : Parts (fun c => c.is "Identifier" = true → ∃ name, Names c name ∧ (Mentioned root name ∨
    ∃ i, e = ⟨(identifier (.str name) (i + 2)).1, e.exported, false⟩)) e.declaration
  key : Parts (IsKey root) e.exported

def Accounts (root : Node) (least : Nat) (fin s : State) : Prop :=
  ∀ e ∈ s.exports, Accounted root least fin e

lemma isKey_identifier {text : String} (h : Mentioned root text ∨ text = "default") (i : Nat) :
    Parts (IsKey root) (identifier (.str text) i).1 :=
  parts_node.2 ⟨⟨"Identifier", by decide, rfl⟩, fun _ => ⟨text, ⟨rfl, rfl⟩, h⟩⟩

lemma inside_identifier {use : Node → Visit.Slot → Prop} (name : Tree) (i : Nat) :
    Parts (Inside use least fin) (identifier name i).1 :=
  parts_node.2 (inside_name "Identifier" (by decide) rfl)

variable {p q : Progress State} (hg : ∀ c, Below root c → Grammatical c) (hb : Below root n)
  (hr : Renewed Lowers n p m q)
include hg hb hr

lemma names_lowered (shape : Shape) (hmem : shape ∈ shapes ++ moduleShapes)
    (hnames : ∀ kind ∈ shape.kinds, kind ∈ nameKinds) (hkey : shape.key ∈ shape.kind.children)
    (hk : m.is shape.kind.name = true) :
    Parts (fun c => ∃ kind ∈ nameKinds, c.is kind = true) (m.get shape.key) := by
  have hn : n.is shape.kind.name = true := by rwa [is, ← hr.kind]
  refine hr.parts carries_lowers (childKeys_of_kind shape.kind (is_iff.1 hn)) hkey
    ((hg n hb).holds hmem hn) ?_
  rintro c a d b hv - - ⟨kind, hkind, hc⟩
  exact ⟨kind, hnames kind hkind, hv.eq_of_name (hnames kind hkind) hc ▸ hc⟩

lemma isKey_exported {xs : List Tree} {x exported : Tree}
    (hk : m.is "ExportNamedDeclaration" = true) (hs : Specifiers m xs) (hx : x ∈ xs)
    (he : x.attr "exported" = .ok exported) (hown : Parts (Explained root least fin) exported) :
    Parts (IsKey root) exported := by
  obtain ⟨c, rfl, hget⟩ := attr_toTree_eq_ok he
  have hm := bequeaths_lowered hg hb hr
  have hck : c.is "ExportSpecifier" = true := by
    have := hm.formed.shape ⟨.exportNamedDeclaration, "specifiers", ["ExportSpecifier"]⟩
      (by simp [shapes]) hk
    simpa using mem_elements hs this hx
  obtain ⟨d, a, b, hd, hl⟩ : LoweredFrom root c := mem_elements hs
    (parts_of_kind .exportNamedDeclaration hk (show "specifiers" ∈ _ by decide) hm.child) hx
  obtain ⟨d', a, b, hd', -, hr'⟩ := hl.origin .exportSpecifier (by decide) hck
  have hkinds := parts_get? (names_lowered hg (hd.trans hd') hr'
    ⟨.exportSpecifier, "exported", nameKinds⟩ (by simp [moduleShapes]) (fun _ h => h) (by decide)
    hck) hget
  intro y hy
  refine ⟨hkinds y hy, fun hi => ?_⟩
  obtain ⟨name, hname, hmentioned⟩ := (hown y hy).own hi
  exact ⟨name, hname, .inl hmentioned⟩

lemma Recorded.accounted {e : Export} (h : Recorded m k s e)
    (hm : Gives (Copied root) (Parts (Explained root least fin)) m)
    (hcall : ∀ source, m.is "ExportAllDeclaration" = true → m.get? "source" = some source →
      Parts (Explained root least fin) (calledImporter k s source)) :
    Accounted root least fin e := by
  have hspecifier {xs : List Tree} {x t : Tree} {key : String}
      (hk : m.is "ExportNamedDeclaration" = true) (hs : Specifiers m xs) (hx : x ∈ xs)
      (hkey : key ∈ Kind.exportSpecifier.children) (ht : x.attr key = .ok t) :
      Parts (Explained root least fin) t := hm.specifier xs hs x hx _ (.exported hk) key hkey t ht
  -- A value that is taken from the program is explained already.
  have htaken {e : Export} (hv : Parts (Explained root least fin) e.declaration)
      (hkey : Parts (IsKey root) e.exported) : Accounted root least fin e := by
    refine ⟨hv.mono fun _ h => h.inside, fun c hc hi => ?_, hkey⟩
    obtain ⟨name, hname, hmentioned⟩ := (hv c hc).own hi
    exact ⟨name, hname, .inl hmentioned⟩
  cases h with
  | names hmentions hkey hi =>
    have hcopied := hm.name _ hmentions
    refine htaken ((grows_explained k).identifier hcopied hi) ?_
    rcases hkey with rfl | rfl
    · obtain ⟨text, rfl, htext⟩ := hcopied
      exact isKey_identifier (.inl htext) _
    · exact isKey_identifier (.inr rfl) _
  | bound hk hs hx hbound hexported =>
    exact htaken (hspecifier hk hs hx (by decide) hbound)
      (isKey_exported hg hb hr hk hs hx hexported (hspecifier hk hs hx (by decide) hexported))
  | @passed xs x exported name i hk _ hs hx _ hexported =>
    exact ⟨inside_identifier _ _, parts_node.2 fun _ => ⟨name, ⟨rfl, rfl⟩, .inr ⟨i, rfl⟩⟩,
      isKey_exported hg hb hr hk hs hx hexported (hspecifier hk hs hx (by decide) hexported)⟩
  | value hk hd =>
    exact htaken (parts_get? (hm.field .exportDefaultDeclaration hk _ (by decide)) hd)
      (isKey_identifier (.inr rfl) _)
  | all hk hsource =>
    have hown := hm.field .exportAllDeclaration hk "exported" (by decide)
    have hkinds := names_lowered hg hb hr ⟨.exportAllDeclaration, "exported", nameKinds⟩
      (by simp [moduleShapes]) (fun _ h => h) (by decide) hk
    refine htaken (hcall _ hk hsource) fun c hc => ⟨hkinds c hc, fun hi => ?_⟩
    obtain ⟨name, hname, hmentioned⟩ := (hown c hc).own hi
    exact ⟨name, hname, .inl hmentioned⟩

end Exports

section Run

variable {p q q' start final : Progress State}

structure Vouches (root : Node) (start final p q : Progress State) : Prop where
  extend : Extends p q
  accounts : Extends start p → Extends q final → Accounts root start.next final.state p.state →
    Accounts root start.next final.state q.state

lemma Vouches.trans {r : Progress State} (h : Vouches root start final p q)
    (h' : Vouches root start final q r) : Vouches root start final p r :=
  ⟨h.extend.trans h'.extend, fun hstart hfinal hp => h'.accounts (hstart.trans h.extend) hfinal
    (h.accounts hstart (h'.extend.trans hfinal) hp)⟩

def Vouched (root : Node) (start final : Progress State) (_ : Node) (p : Progress State) (m : Node)
    (q : Progress State) : Prop :=
  Vouches root start final p q ∧ (Extends start p → Extends q final →
    Accounts root start.next final.state p.state → Explained root start.next final.state m)

lemma carries_vouched : Carries (Vouched root start final) (Vouches root start final) :=
  ⟨fun p => ⟨.refl p, fun _ _ h => h⟩, .trans, fun h => h.1⟩

lemma explained_slot (hr : Renewed (Vouched root start final) n p m q) (hstart : Extends start p)
    (hfinal : Extends q final) (hp : Accounts root start.next final.state p.state) :
    ∀ u ∈ slots m, Explained root start.next final.state u.child := by
  intro u hu
  obtain ⟨s, hs, hplace, a, b, ⟨hab, hv⟩, ha, hb⟩ := hr.slot_of_mem carries_vouched hu
  have hbf := hb.extend.trans hfinal
  exact hv (hstart.trans ha.extend) hbf (ha.accounts hstart (hab.extend.trans hbf) hp)

lemma Turned.vouched (hs : Turned m q m' q') (hext : Extends q q')
    (hg : ∀ c, Below root c → Grammatical c) (hgiven : Given start.next root)
    (hb : Below root n) (hr : Renewed Lowers n p m q)
    (hv : Renewed (Vouched root start final) n p m q) : Vouched root start final n p m' q' := by
  have hpq := hv.progress carries_vouched
  suffices hstep : Extends start p → Extends q' final →
      Accounts root start.next final.state p.state →
      Explained root start.next final.state m' ∧ Accounts root start.next final.state q'.state from
    ⟨⟨hpq.extend.trans hext, fun hstart hfinal hp => (hstep hstart hfinal hp).2⟩,
      fun hstart hfinal hp => (hstep hstart hfinal hp).1⟩
  intro hstart hfinal hp
  have hslot := explained_slot hv hstart (hext.trans hfinal) hp
  have hq := hpq.accounts hstart (hext.trans hfinal) hp
  have hnext : start.next ≤ q.next := Nat.le_trans hstart.next hpq.extend.next
  cases hs with
  | @still s _ _ hsame =>
    have hexports : s.exports = q.state.exports := by rw [hsame]
    refine ⟨⟨.of_slots (fun u hu => (hslot u hu).role) (fun hle _ => ?_)
      fun u hu => (hslot u hu).inside, fun hi => ?_⟩, by rwa [Accounts, hexports]⟩
    · -- The node has been in the program, so it is no new call.
      have hold := (hgiven.below hb).id_lt
      rw [hr.id] at hle
      omega
    · have hn : n.is "Identifier" = true := hr.is _ ▸ hi
      obtain rfl := lowered_leaf hr .identifier hn rfl
      exact named_below hg hb hi
  | @operator kind keys new k s ho hk hrew =>
    refine ⟨?_, by rwa [Accounts, hrew.exports]⟩
    refine parts_toTree.1 (hrew.assembled (assembles_explained hfinal hnext)
      (fun key hkey => ?_) fun key hkey name hname => ?_)
    · exact parts_of_slots (childKeys_of_operands ho hk) hkey hslot
    · exact hname.copied hg ho hk hkey hb hr
  | @declaration new k s hd =>
    have hassembles : Assembles q.state s q.next (Copied root)
        (Parts (Explained root start.next final.state)) := assembles_explained hfinal hnext
    have hgives : Gives (Copied root) (Parts (Explained root start.next final.state)) m := by
      have hall : ∀ K ∈ donors, K.name ∉ replacements := by decide
      have hm := bequeaths_lowered hg hb hr
      refine gives_of_slots hm.formed hslot (fun u hu K hK hk v hv => ?_) fun name hname =>
        hname.copied hg hb hr
      have hlowered := ((hm.child u hu).bequeaths hg K (hall K hK) hk).child v hv
      exact ⟨(hslot u hu).inside.child hv, fun hi => named_below hg (hlowered.identifier hi) hi⟩
    refine ⟨parts_toTree.1 (hd.assembled hassembles hgives), fun e he => ?_⟩
    rcases hd.adds.mem he with hold | hrec
    · exact hq e hold
    · refine hrec.accounted hg hb hr hgives fun source hk hsource => ?_
      obtain ⟨hfn, hawait⟩ := hd.calls_exportAll hk
      exact hassembles.importer _ _ (Nat.le_refl _) hfn hawait
        (parts_get? (hgives.field .exportAllDeclaration hk _ (by decide)) hsource)

lemma Lowers.vouched (h : Lowers n p m q) (hg : ∀ c, Below root c → Grammatical c)
    (hgiven : Given start.next root) (hb : Below root n) : Vouched root start final n p m q := by
  refine h.recursion (P := Vouched root start final) fun c _ _ _ _ _ hc hr hs hext => ?_
  exact hs.vouched hext hg hgiven (hb.trans hc) (hr.mono fun _ _ _ _ _ h => h.1)
    (hr.mono fun _ _ _ _ _ h => h.2)

end Run

section Root

variable {root' : Node} {p q : Progress State}

def Returns (root' : Node) (properties : List Tree) : Prop :=
  ∃ body i j, root'.get? "body" =
    some (.list (body ++ [(ret (objectExpression properties i).1 j).1]))

inductive Shows (root : Node) (exports : List Export) (properties : List Tree) (z : Node)
    (u : Visit.Slot) : Prop
  | key : z.toTree ∈ properties → u.key = "key" → IsKey root u.child →
      Shows root exports properties z u
  | value {name : String} {i : Nat} {exported : Tree} : z.toTree ∈ properties → u.key = "value" →
      u.child.toTree = (identifier (.str name) (i + 2)).1 →
      ⟨(identifier (.str name) (i + 2)).1, exported, false⟩ ∈ exports →
      Shows root exports properties z u

def Used (root : Node) (least : Nat) (fin : State) (root' z : Node) (u : Visit.Slot) : Prop :=
  Serves root least fin z u ∨ ∃ properties, Returns root' properties ∧
    Shows root fin.exports properties z u

section Object

variable {use : Node → Visit.Slot → Prop} {properties : List Tree}
  (hserves : ∀ z u, Serves root least fin z u → use z u)
  (hshows : ∀ z u, Shows root fin.exports properties z u → use z u)
include hserves hshows

lemma Exported.inside {e : Export} {x : Tree} (h : Exported k e x) (hx : x ∈ properties)
    (hmem : e ∈ fin.exports) (he : Accounted root least fin e) :
    Parts (fun c => Inside use least fin c ∧ c.is "Identifier" = false) x := by
  have hvalue := he.value.mono fun _ h => h.mono hserves
  cases h with
  | spread hspread =>
    have htitle : Parts (Copies root) e.declaration := by
      refine he.title.mono fun c h hi => ?_
      obtain ⟨name, hname, hm | ⟨i, hi⟩⟩ := h hi
      · exact ⟨name, hname, hm⟩
      · rw [hi] at hspread
        cases hspread
    refine parts_node.2 ⟨.of_kind "SpreadElement" rfl (by decide) (fun u hu hi => ?_)
      (fun u hu => ?_), rfl⟩
    · have hcopies : Copies root u.child := slot_of_parts (by simpa using htitle) hu
      obtain ⟨name, hname, hm⟩ := hcopies hi
      exact hserves _ _ (.copy hname hm)
    · exact slot_of_parts (by simpa using hvalue) hu
  | @property i key shorthand _ _ hkey =>
    have hkeys : Parts (IsKey root) key := by
      rcases hkey with rfl | ⟨-, n, j, -, hn, rfl⟩
      · exact he.key
      · exact parts_toTree.2 (parts_toTree.1 (hn ▸ he.key) : IsKey root n)
    have hslot (u : Visit.Slot) (hu : u ∈ slots ⟨i, .str "Property", [("key", key),
        ("value", e.declaration), ("kind", .str "init"), ("method", .bool false),
        ("shorthand", .bool shorthand), ("computed", .bool false)]⟩) :
        u.key = "key" ∧ IsKey root u.child ∨ u.key = "value" ∧
          (e.declaration = u.child.toTree ∨ ∃ xs, e.declaration = .list xs ∧ u.child.toTree ∈ xs) := by
      have hkey := ((mem_slots_iff (childKeys_of_kind .property rfl)).1 hu).1
      have hpart := part_of_slot hu
      rcases mem_pair.1 hkey with hkey | hkey
      · rw [hkey] at hpart
        exact .inl ⟨hkey, hkeys u.child hpart⟩
      · rw [hkey] at hpart
        exact .inr ⟨hkey, hpart⟩
    refine parts_node.2 ⟨.of_kind "Property" rfl (by decide) (fun u hu hi => ?_)
      (fun u hu => ?_), rfl⟩
    · rcases hslot u hu with ⟨hkey, hisKey⟩ | ⟨hkey, hpart⟩
      · exact hshows _ _ (.key hx hkey hisKey)
      · obtain ⟨name, hname, hm | ⟨l, hl⟩⟩ := he.title u.child hpart hi
        · exact hserves _ _ (.copy hname hm)
        · rw [hl] at hmem hpart
          rcases hpart with hc | ⟨xs, hxs, -⟩
          · exact hshows _ _ (.value hx hkey hc.symm hmem)
          · cases hxs
    · rcases hslot u hu with ⟨-, ⟨kind, hkind, hk⟩, -⟩ | ⟨-, hpart⟩
      · exact inside_name kind hkind hk
      · exact hvalue u.child hpart

end Object

lemma Closes.inside (h : Closes m k fin root' j) (hm : m.is "Program" = true)
    (hslot : ∀ u ∈ slots m, Explained root least fin u.child)
    (hacc : Accounts root least fin fin) :
    root'.is "BlockStatement" = true ∧ Inside (Used root least fin root') least fin root' := by
  let Q (c : Node) : Prop := Inside (Used root least fin root') least fin c ∧ Copies root c
  have hother {c : Node} (kind : String) (hk : c.is kind = true)
      (hne : kind ≠ "Identifier" ∧ kind ≠ "CallExpression") (h : ∀ u ∈ slots c, Q u.child) : Q c := by
    refine ⟨.of_kind kind hk hne.2 (fun u hu hi => ?_) fun u hu => (h u hu).1,
      fun hi => (is_unique hk hi hne.1).elim⟩
    obtain ⟨name, hname, hm⟩ := (h u hu).2 hi
    exact .inl (.copy hname hm)
  have hbody : Parts Q (m.get "body") := parts_of_kind .program hm (by decide) fun u hu =>
    ⟨(hslot u hu).inside.mono fun _ _ => .inl, (hslot u hu).own⟩
  obtain ⟨hblock, hslots⟩ := h.parts hbody fun body t hget ht => by
    obtain ⟨-, i, l, ps, hi, hl, hps, rfl⟩ := supplies_returned k _ k t j (Nat.le_refl k) ht
    have hreturns : Returns root' ps := ⟨body, i, l, hget⟩
    have hproperty (x : Tree) (hx : x ∈ ps) : Parts Q x := by
      obtain ⟨e, hmem, hex⟩ := exists_of_forall₂ hps hx
      refine (hex.inside (fun _ _ => .inl) (fun _ _ h => .inr ⟨ps, hreturns, h⟩) hx hmem
        (hacc e hmem)).mono fun c ⟨hc, hno⟩ => ⟨hc, fun hi => ?_⟩
      rw [hno] at hi
      cases hi
    refine parts_node.2 (hother "ReturnStatement" rfl (by decide) fun _ => slot_of_parts ?_)
    refine forall_mem_singleton.2 (parts_node.2 ?_)
    refine hother "ObjectExpression" rfl (by decide) fun _ => slot_of_parts ?_
    exact forall_mem_singleton.2 (parts_items hproperty)
  exact ⟨hblock, (hother "BlockStatement" hblock (by decide) hslots).1⟩

lemma Closes.returns (h : Closes m k fin root' j) (hr : fin.options.returnsExports = true) :
    ∃ properties, Returns root' properties ∧ Forall₂ (Exported k) fin.exports properties := by
  cases h with
  | plain hno =>
    rw [hr] at hno
    cases hno
  | @exports body t _ _ _ hret =>
    obtain ⟨-, i, l, ps, -, -, hps, rfl⟩ := supplies_returned k _ k t _ (Nat.le_refl k) hret
    exact ⟨ps, ⟨body, i, l, get?_of_get (get_appended ..) (by simp)⟩, hps⟩

end Root

end Overload.Lowering
