import Overload.Proofs.Lowering.Building
import Overload.Proofs.Tree.Numbering

/-! Trees in which the rules have nothing left to do. -/

namespace Overload.Lowering

open Visit List Overload.Tree Node Target

variable {key kind : String}

structure Rests (options : Options) (n : Node) : Prop where
  still : Still options n
  keys : ∃ keys, n.childKeys = .ok keys ∧ keys.Nodup ∧ "type" ∉ keys
  plain : ∀ kind ∈ moduleKinds, n.is kind = false
  formed : Formed n

def Done (options : Options) (n : Node) : Prop := ∀ m, Below n m → Rests options m

variable {options : Options} {n m : Node}

lemma Done.of_slots (hn : Rests options n) (h : ∀ s ∈ slots n, Done options s.child) :
    Done options n := by
  intro m hb
  rcases below_iff.1 hb with rfl | ⟨s, hs, hb⟩
  · exact hn
  · exact h s hs m hb

lemma Done.rests (h : Done options n) : Rests options n := h n .refl

lemma Done.child (h : Done options n) {s : Visit.Slot} (hs : s ∈ slots n) : Done options s.child :=
  fun m hb => h m (.head hs hb)

lemma Done.renumber (h : Done options n) (i : Nat) : Done options { n with id := i } := by
  obtain ⟨hstill, hkeys, hplain, hformed⟩ := h.rests
  refine .of_slots ⟨hstill.congr fun _ => rfl, hkeys, hplain, hformed.1, hformed.2⟩ fun s hs => ?_
  exact h.child hs

section Built

lemma get?_of_unruled (h : kind ∉ builtinRules.map (·.1)) :
    Entries.get? kind builtinRules = none := by
  cases hr : Entries.get? kind builtinRules with
  | none => rfl
  | some rules => exact absurd (List.mem_map_of_mem (Entries.mem_of_get? hr)) h

lemma still_of_unruled (hk : n.kind = .str kind) (h : kind ∉ builtinRules.map (·.1))
    (options : Options) : Still options n := by
  refine still_of_rulesFor ?_ options
  simp [rulesFor, hk, key, isKey, get?_of_unruled h]

lemma still_assign (hk : n.kind = .str "AssignmentExpression")
    (hop : n.get? "operator" = some (.str "=")) (options : Options) : Still options n := by
  refine still_of_rule hk rfl fun c hc _ _ => ⟨c.state, ?_, .refl _⟩
  by_cases ho : c.state.options.overloading = true
  · exact assignmentRule_plain ho ((hc _).trans hop)
  · exact overloading_off ho _

def IsText (t : Tree) : Prop := ∃ s, t = .str s

lemma rests_made (h : Made IsText n) : Rests options n := by
  have hrests {n : Node} (K : Kind) (hk : n.kind = .str K.name) (hs : Still options n)
      (hm : K.name ∉ moduleKinds) (hf : Formed n) : Rests options n :=
    ⟨hs, ⟨K.children, childKeys_of_kind K hk, children_nodup K⟩, is_other hk hm, hf⟩
  cases h with
  | plain K hK =>
    have hall : ∀ K ∈ plainKinds, (K = .awaitExpression ∨ K.name ∉ builtinRules.map (·.1)) ∧
        K.name ∉ moduleKinds ∧ K.name ∉ "Identifier" :: shapes.map (·.kind.name) := by decide
    obtain ⟨hrules, hmodule, hshapes⟩ := hall K hK
    refine hrests K rfl ?_ hmodule (formed_of_other rfl hshapes)
    rcases hrules with rfl | hrules
    · exact still_await rfl options
    · exact still_of_unruled rfl hrules options
  | list K key kind hK hparts =>
    have hall : ∀ e ∈ listKinds, e.1.name ∉ builtinRules.map (·.1) ∧ e.1.name ∉ moduleKinds ∧
        e.1.name ≠ "Identifier" ∧ ∀ shape ∈ shapes, shape.kind = e.1 →
          shape.key = e.2.1 ∧ e.2.2 ∈ shape.kinds := by decide
    obtain ⟨hrules, hmodule, hname, hshapes⟩ := hall _ hK
    refine hrests K rfl (still_of_unruled rfl hrules options) hmodule
      (formed_of_shape K rfl hname fun shape hmem hk => ?_)
    obtain ⟨hkey, hkinds⟩ := hshapes shape hmem hk
    exact hkey ▸ hparts.mono fun c hc => ⟨kind, hkinds, hc⟩
  | identifier hname =>
    obtain ⟨name, rfl⟩ := hname
    exact hrests .identifier rfl (still_identifier rfl rfl rfl options) (by decide)
      (formed_of_kind rfl (fun _ => ⟨name, rfl⟩) (by decide))
  | assignment hop =>
    exact hrests .assignmentExpression rfl (still_assign rfl hop options) (by decide)
      (formed_of_other rfl (by decide))

lemma builds_done (k : Nat) : Builds k IsText (Parts (Done options)) :=
  builds_of_children (fun s => ⟨s, rfl⟩) fun _ _ hm h => .of_slots (rests_made hm) h

end Built

lemma NameIn.isText {name : Tree} (h : NameIn m key name) (hm : Parts (Done options) (m.get key)) :
    IsText name := by
  obtain ⟨c, hc, his, hname⟩ := h
  rw [Node.get, hc] at hm
  obtain ⟨s, hs⟩ := (parts_toTree.1 hm).rests.formed.name his
  exact ⟨s, Option.some.inj (hname.symm.trans hs)⟩

section Declarations

variable {k j : Nat} {s s' : State} {t : Tree}

lemma is_of_kind_eq {x : Tree} (h : x.kind = .ok (.str kind)) {c : Node} (hc : x = c.toTree) :
    c.is kind = true := by
  subst hc
  exact is_iff.2 (Except.ok.inj h)

def bindingKinds : List Kind :=
  [.assignmentPattern, .restElement, .objectPattern, .arrayPattern, .property, .variableDeclarator,
    .functionDeclaration, .classDeclaration, .importNamespaceSpecifier]

structure Bequeaths (P : Node → Prop) (n : Node) : Prop where
  formed : Formed n
  child : ∀ s ∈ slots n, P s.child

def Inherited (P : Node → Prop) : Prop :=
  ∀ c, P c → ∀ K ∈ bindingKinds, c.is K.name = true → Bequeaths P c

lemma Done.bequeaths (h : Done options n) : Bequeaths (Done options) n :=
  ⟨h.rests.formed, fun _ => h.child⟩

lemma inherited_done : Inherited (Done options) := fun _ h _ _ _ => h.bequeaths

section Inherited

variable {P : Node → Prop}

lemma Bequeaths.field (hn : Bequeaths P n) (K : Kind) (hk : n.is K.name = true)
    (hkey : key ∈ K.children) (ht : n.get? key = some t) : Parts P t :=
  parts_get? (parts_of_kind K hk hkey hn.child) ht

lemma Bequeaths.shape (hn : Bequeaths P n) (shape : Shape) (hmem : shape ∈ shapes)
    (hk : n.is shape.kind.name = true) (ht : n.get? shape.key = some t) :
    Parts (fun c => ∃ kind ∈ shape.kinds, c.is kind = true) t :=
  parts_get? (hn.formed.shape shape hmem hk) ht

variable (hP : Inherited P)
include hP

lemma Binds.identifiers {target : Target} {names : List Tree} (h : Binds target names)
    (ht : target.Each P) : ∀ x ∈ names, ∃ c : Node, x = c.toTree ∧ P c ∧
      c.is "Identifier" = true := by
  have hself {role : Role} {n : Node} (hn : Each P (.one role n.toTree)) : P n :=
    (hn n (by simp [trees])).1
  -- A pattern in a field of a node has the property if the node is on the way to names.
  have hfield {role : Role} {n : Node} (hn : Each P (.one role n.toTree)) (K : Kind)
      (hK : K ∈ bindingKinds) (hk : n.is K.name = true) {key : String} (hkey : key ∈ K.children)
      {t : Tree} (ht : n.get? key = some t) : Parts P t :=
    (hP n (hself hn) K hK hk).field K hk hkey ht
  induction h with
  | @identifier n hn =>
    intro x hx
    exact ⟨n, mem_singleton.1 hx, hself ht, hn⟩
  | default hn hleft _ ih =>
    exact ih (each_one (hfield ht .assignmentPattern (by decide) hn (by decide) hleft))
  | rest hn harg _ ih =>
    exact ih (each_one (hfield ht .restElement (by decide) hn (by decide) harg))
  | @object n t ts names hn hps hts _ ih =>
    have hd := hfield ht .objectPattern (by decide) hn (by decide) hps
    have hshape := (hP n (hself ht) .objectPattern (by decide) hn).shape
      ⟨.objectPattern, "properties", ["Property", "RestElement"]⟩ (by simp [shapes]) hn hps
    exact ih fun c hc => ⟨mem_elements hts hd hc, fun _ => mem_elements hts hshape hc⟩
  | array hn helems hts _ ih =>
    have hd := hfield ht .arrayPattern (by decide) hn (by decide) helems
    exact ih fun c hc => ⟨mem_elements hts hd hc, nofun⟩
  | property hn hv _ ih =>
    exact ih (each_one (hfield ht .property (by decide) hn (by decide) hv))
  | @remaining n t names hn harg _ ih =>
    obtain ⟨kind, hmem, hk⟩ := (ht n (by simp [trees])).2 rfl
    rcases mem_pair.1 hmem with rfl | rfl
    · rw [hn] at hk
      cases hk
    · exact ih (each_one (hfield ht .restElement (by decide) hk (by decide) harg))
  | nil => simp
  | hole _ ih => exact ih fun c hc => ht c (mem_cons_of_mem _ hc)
  | cons _ _ iht ihts =>
    intro x hx
    rcases mem_append.1 hx with hx | hx
    · exact iht (fun c hc => ht c (by simpa [trees] using .inl (mem_singleton.1 hc))) x hx
    · exact ihts (fun c hc => ht c (mem_cons_of_mem _ hc)) x hx

lemma Declares.identifiers {names : List Tree} (h : Declares n names) (hn : Bequeaths P n) :
    ∀ c : Node, c.toTree ∈ names → P c ∧ c.is "Identifier" = true := by
  intro c hc
  cases h with
  | @patterns t ds nss hk hdecl hds hnss =>
    have hd := hn.field .variableDeclaration hk (by decide) hdecl
    have hshape := hn.shape ⟨.variableDeclaration, "declarations", ["VariableDeclarator"]⟩
      (by simp [shapes]) hk hdecl
    obtain ⟨ns, hns, hc⟩ := mem_flatten.1 hc
    obtain ⟨d, hmem, id, hid, hbinds⟩ := exists_of_forall₂ hnss hns
    obtain ⟨d, rfl, hget⟩ := attr_toTree_eq_ok hid
    have hdk : d.is "VariableDeclarator" = true := by simpa using mem_elements hds hshape hmem
    have hid := (hP d (mem_elements hds hd hmem) .variableDeclarator (by decide) hdk).field
      .variableDeclarator hdk (by decide) hget
    obtain ⟨c', hc', hfound⟩ := hbinds.identifiers hP (each_one hid) _ hc
    rwa [toTree_injective hc']
  | @named kind id hmem hk hid =>
    obtain rfl := mem_singleton.1 hc
    have hfound (K : Kind) (hK : K.name = kind) (hkey : "id" ∈ K.children)
        (hshape : ⟨K, "id", ["Identifier"]⟩ ∈ shapes) : P c ∧ c.is "Identifier" = true := by
      subst hK
      have hi := parts_toTree.1 (hn.shape _ hshape hk hid)
      exact ⟨parts_toTree.1 (hn.field K hk hkey hid), by simpa using hi⟩
    rcases mem_pair.1 hmem with rfl | rfl
    · exact hfound .functionDeclaration rfl (by decide) (by simp [shapes])
    · exact hfound .classDeclaration rfl (by decide) (by simp [shapes])

end Inherited

lemma index_eq_toTree {i : Nat} {c : Node} (h : t.index i = .ok c.toTree) :
    ∃ xs, t = .list xs ∧ c.toTree ∈ xs := by
  have hat {xs : List Tree} (h : at? xs i = .ok c.toTree) : c.toTree ∈ xs := by
    unfold at? at h
    split at h
    · rename_i hx
      exact Except.ok.inj h ▸ mem_of_getElem? hx
    · cases h
  cases t with
  | list xs => exact ⟨xs, rfl, hat h⟩
  | str s =>
    have := hat (show at? (s.toList.map ofChar) i = _ from h)
    simp [ofChar, toTree] at this
  | _ => cases h

lemma namespaceSpecifier?_eq_some {only : Tree} (h : namespaceSpecifier? t = .ok (some only)) :
    ∃ c : Node, only = c.toTree ∧ c.is "ImportNamespaceSpecifier" = true ∧
      ∃ xs, t = .list xs ∧ c.toTree ∈ xs := by
  obtain ⟨size, -, h⟩ := except_bind_eq_ok.1 h
  split at h
  · obtain ⟨x, hx, h⟩ := except_bind_eq_ok.1 h
    obtain ⟨kind, hkind, h⟩ := except_bind_eq_ok.1 h
    have h := Except.ok.inj h
    split at h
    · rename_i hi
      obtain rfl := Option.some.inj h
      obtain ⟨c, rfl, hget⟩ := attr_toTree_eq_ok hkind
      obtain rfl : c.kind = kind := Option.some.inj hget
      exact ⟨c, rfl, hi, index_eq_toTree hx⟩
    · cases h
  · cases h

lemma Mentions.identifier {P : Node → Prop} {name : Tree} (h : Mentions m name) (hP : Inherited P)
    (hc : ∀ u ∈ slots m, P u.child)
    (he : m.is "ExportNamedDeclaration" = true → ∀ u ∈ slots m, Bequeaths P u.child) :
    ∃ c, P c ∧ c.is "Identifier" = true ∧ c.get? "name" = some name := by
  cases h with
  | @all specifiers only bound _ hk hspec honly hbound hname =>
    obtain ⟨c, rfl, his, xs, rfl, hmem⟩ := namespaceSpecifier?_eq_some honly
    have hspecs := parts_get? (parts_of_kind .importDeclaration hk (by decide) hc) hspec
    have hself := hP c (parts_list.1 hspecs c hmem) .importNamespaceSpecifier (by decide) his
    obtain ⟨d, rfl, hget⟩ := attr_toTree_eq_ok hname
    have hlocal : c.get? "local" = some d.toTree := attr_eq_ok.1 hbound
    have hid := hself.shape ⟨.importNamespaceSpecifier, "local", ["Identifier"]⟩ (by simp [shapes])
      his hlocal
    have hd := hself.field .importNamespaceSpecifier his (by decide) hlocal
    exact ⟨d, parts_toTree.1 hd, by simpa using parts_toTree.1 hid, hget⟩
  | declared hk hnames hx hname =>
    obtain ⟨c, hc, hdeclares⟩ := declares_of_declaredNames hnames
    have hself := parts_of_kind .exportNamedDeclaration hk (show "declaration" ∈ _ by decide) (he hk)
    rw [hc] at hself
    obtain ⟨d, rfl, hget⟩ := attr_toTree_eq_ok hname
    obtain ⟨hd, his⟩ := hdeclares.identifiers hP (parts_toTree.1 hself) d hx
    exact ⟨d, hd, his, hget⟩
  | @default declaration id kind _ hk hd hid hkind hmem hname =>
    have hd := parts_get? (parts_of_kind .exportDefaultDeclaration hk (by decide) hc) hd
    obtain ⟨c, rfl, hget⟩ := attr_toTree_eq_ok hkind
    obtain rfl : c.kind = kind := Option.some.inj hget
    obtain ⟨kind, hk, hmem⟩ := among_eq_true hmem
    have hk := is_iff.2 hk
    obtain ⟨d, rfl, hget⟩ := attr_toTree_eq_ok hname
    have hdeclares : Declares c [d.toTree] := .named hmem hk
      (get?_of_get (Except.ok.inj hid) (by simp [toTree]))
    have hself : Bequeaths P c := by
      rcases mem_pair.1 hmem with rfl | rfl
      · exact hP c (parts_toTree.1 hd) .functionDeclaration (by decide) hk
      · exact hP c (parts_toTree.1 hd) .classDeclaration (by decide) hk
    obtain ⟨hd, his⟩ := hdeclares.identifiers hP hself d (by simp)
    exact ⟨d, hd, his, hget⟩

lemma Mentions.isText {name : Tree} (h : Mentions m name)
    (hc : ∀ u ∈ slots m, Done options u.child) : IsText name := by
  obtain ⟨c, hdone, his, hname⟩ := h.identifier inherited_done hc fun _ u hu => (hc u hu).bequeaths
  obtain ⟨s, hs⟩ := hdone.rests.formed.name his
  exact ⟨s, Option.some.inj (hname.symm.trans hs)⟩

def donors : List Kind := [.importDefaultSpecifier, .importSpecifier, .exportSpecifier]

lemma gives_of_slots {N : Tree → Prop} {Q : Node → Prop} (hf : Formed m)
    (hc : ∀ u ∈ slots m, Q u.child)
    (hd : ∀ u ∈ slots m, ∀ K ∈ donors, u.child.is K.name = true → ∀ v ∈ slots u.child, Q v.child)
    (hn : ∀ name, Mentions m name → N name) : Gives N (Parts Q) m where
  field K hk _ hkey := parts_of_kind K hk hkey.2 hc
  specifier xs hs x hx K htaken key hkey u hu := by
    -- The kind of an imported specifier is looked at, that of an exported one is given.
    have hdonor (L : Kind) (hL : m.is L.name = true) (hspec : "specifiers" ∈ L.children)
        (hK : K ∈ donors) (his : ∀ c : Node, x = c.toTree → c.is K.name = true) : Parts Q u := by
      obtain ⟨c, rfl, hget⟩ := attr_toTree_eq_ok hu
      have hparts := parts_of_kind (P := fun c => c.is K.name = true → ∀ v ∈ slots c, Q v.child)
        L hL hspec fun v hv => hd v hv K hK
      have := parts_of_kind K (his c rfl) hkey (mem_elements hs hparts hx (his c rfl))
      rwa [Node.get, hget] at this
    cases htaken with
    | imported hk hK hkind =>
      exact hdonor .importDeclaration hk (by decide) (mem_append_left [_] hK)
        fun _ => is_of_kind_eq hkind
    | exported hk =>
      refine hdonor .exportNamedDeclaration hk (by decide) (by decide) fun c hc => ?_
      have hshape := hf.shape ⟨.exportNamedDeclaration, "specifiers", ["ExportSpecifier"]⟩
        (by simp [shapes]) hk
      change c.is "ExportSpecifier" = true
      simpa using mem_elements hs hshape (hc ▸ hx)
  name := hn

lemma gives_done (hc : ∀ u ∈ slots m, Done options u.child) (hf : Formed m) :
    Gives IsText (Parts (Done options)) m :=
  gives_of_slots hf hc (fun u hu _ _ _ _ hv => (hc u hu).child hv) fun _ h => h.isText hc

def DoneExports (options : Options) (s : State) : Prop :=
  ∀ e ∈ s.exports, Parts (Done options) e.declaration ∧ Parts (Done options) e.exported

lemma Declared.doneExports (h : Declared m k s t j s') (hm : Gives IsText (Parts (Done options)) m)
    (hs : DoneExports options s) : DoneExports options s' := fun e he =>
  (h.adds.mem he).elim (hs e) fun hr => hr.parts (builds_done k) hm

lemma Closes.done (h : Closes m k s n j) (hb : Parts (Done options) (m.get "body"))
    (hs : DoneExports options s) : Done options n ∧ n.is "Program" = false := by
  obtain ⟨hblock, hslots⟩ := h.parts hb fun _ t _ ht => returned_parts ht (builds_done k).grows fun e he =>
    ⟨(hs e he).1, (hs e he).2, fun _ n hn j => parts_toTree.2 ((parts_toTree.1 (hn ▸ (hs e he).2)).renumber j)⟩
  obtain ⟨id, kind, fields⟩ := n
  obtain rfl : kind = .str "BlockStatement" := is_iff.1 hblock
  exact ⟨.of_slots (rests_made (.plain .blockStatement (by decide))) hslots, rfl⟩

end Declarations

end Overload.Lowering
