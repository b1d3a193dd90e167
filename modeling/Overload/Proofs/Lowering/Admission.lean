import Overload.Proofs.Lowering.Complete
import Overload.Proofs.Visit.Order

/-! What may be exported. -/

namespace Overload.Lowering

open Visit List Option Except

variable {kind : String} {k : Nat} {role : Role} {xs : List Tree} {c : Node}

deriving instance DecidableEq for Role

structure Nesting where
  role : Role
  kind : Kind
  key : String
  form : Form
  inner : Role
  deriving DecidableEq

def nestings : List Nesting :=
  [⟨.pattern, .assignmentPattern, "left", .node, .pattern⟩,
    ⟨.pattern, .restElement, "argument", .node, .pattern⟩,
    ⟨.pattern, .objectPattern, "properties", .nodes, .property⟩,
    ⟨.pattern, .arrayPattern, "elements", .holes, .pattern⟩,
    ⟨.property, .property, "value", .node, .pattern⟩,
    ⟨.property, .restElement, "argument", .node, .pattern⟩]

inductive Pattern : Role → Node → Prop
  | identifier {n : Node} : n.is "Identifier" = true → Pattern .pattern n
  | nested {n : Node} {e : Nesting} : e ∈ nestings → n.is e.kind.name = true →
      Parts (Pattern e.inner) (n.get e.key) → Pattern e.role n

variable {n m : Node} {p q : Progress State}

lemma pattern_nested_iff {e : Nesting} (he : e ∈ nestings) (hk : n.is e.kind.name = true) :
    Pattern e.role n ↔ Parts (Pattern e.inner) (n.get e.key) := by
  refine ⟨fun h => ?_, .nested he hk⟩
  generalize hrole : e.role = role at h
  cases h with
  | identifier hi =>
    have hall : ∀ e ∈ nestings, e.kind.name ≠ "Identifier" := by decide
    exact (is_unique hk hi (hall e he)).elim
  | @nested _ e' he' hk' hparts =>
    have hall : ∀ e ∈ nestings, ∀ e' ∈ nestings, e.role = e'.role → e.kind.name = e'.kind.name →
        e = e' := by decide
    have hname : e.kind.name = e'.kind.name := by
      by_contra hne
      exact is_unique hk hk' hne
    rwa [hall e he e' he' hrole hname]

lemma not_kind {kinds : List String} (h : ∀ kind ∈ kinds, n.is kind = false)
    (hk : n.kind = .str kind) (hmem : kind ∈ kinds) : False := by
  have := h kind hmem
  rw [Node.is_iff.2 hk] at this
  cases this

def Finds (P : Prop) (O : Fault → Prop) (r : Except Fault (List Tree)) : Prop :=
  (P ∧ ∃ names, r = .ok names ∧ ∀ x ∈ names, ∃ name, x.attr "name" = .ok name) ∨
    ¬P ∧ ∃ fault, r = .error fault ∧ O fault

namespace Finds

variable {P Q : Prop} {O : Fault → Prop} {r s : Except Fault (List Tree)}

lemma congr (h : Finds P O r) (hPQ : P ↔ Q) : Finds Q O r := by
  rwa [Finds, ← hPQ]

lemma mono {O' : Fault → Prop} (h : Finds P O r) (hO : ∀ fault, O fault → O' fault) :
    Finds P O' r := by
  rcases h with h | ⟨hP, fault, hr, hfault⟩
  · exact .inl h
  · exact .inr ⟨hP, fault, hr, hO fault hfault⟩

lemma append (hr : Finds P O r) (hs : Finds Q O s) :
    Finds (P ∧ Q) O (do return (← r) ++ (← s)) := by
  rcases hr with ⟨hP, xs, rfl, hxs⟩ | ⟨hP, fault, rfl, hfault⟩
  · rcases hs with ⟨hQ, ys, rfl, hys⟩ | ⟨hQ, fault, rfl, hfault⟩
    · refine .inl ⟨⟨hP, hQ⟩, xs ++ ys, rfl, fun x hx => ?_⟩
      exact (mem_append.1 hx).elim (hxs x) (hys x)
    · exact .inr ⟨fun h => hQ h.2, fault, rfl, hfault⟩
  · exact .inr ⟨fun h => hP h.1, fault, rfl, hfault⟩

lemma one {x : Node} {name : Tree} (hP : P) (hr : r = .ok [x.toTree])
    (hname : x.get? "name" = some name) : Finds P O r := by
  refine .inl ⟨hP, _, hr, fun y hy => ⟨name, ?_⟩⟩
  rw [mem_singleton.1 hy]
  exact attr_eq_ok.2 hname

end Finds

inductive NotPattern : Fault → Prop
  | mk {kind : Tree} : NotPattern (.unknownPattern kind)

def boundIn (role : Role) : Tree → Except Fault (List Tree)
  | .list xs => boundAll role xs
  | t => boundAs role t

lemma boundAs_nested {e : Nesting} (he : e ∈ nestings) (hk : n.is e.kind.name = true) {t : Tree}
    (ht : n.get? e.key = some t) (hform : e.form.fits (some t) = true) :
    boundAs e.role n.toTree = boundIn e.inner t := by
  have hkind := Node.is_iff.1 hk
  have hone (hnode : Form.node.fits (some t) = true) : boundAs .pattern t = boundIn .pattern t := by
    obtain ⟨c, hc⟩ := fits_node hnode
    obtain rfl := Option.some.inj hc
    rfl
  simp only [nestings, mem_cons, not_mem_nil, or_false] at he
  rw [boundAs_toTree]
  rcases he with rfl | rfl | rfl | rfl | rfl | rfl
  · rw [nodeBound, hkind]
    exact (boundBy_eq (by decide) ht).trans (hone hform)
  · rw [nodeBound, hkind]
    exact (boundBy_eq (by decide) ht).trans (hone hform)
  · obtain ⟨cs, hcs⟩ := fits_nodes hform
    obtain rfl := Option.some.inj hcs
    rw [nodeBound, hkind]
    exact boundByAll_eq .property (by decide) ht
  · obtain ⟨xs, hxs, -⟩ := fits_holes hform
    obtain rfl := Option.some.inj hxs
    rw [nodeBound, hkind]
    exact boundByAll_eq .pattern (by decide) ht
  · refine (if_pos hk).trans ?_
    exact (boundBy_eq (by decide) ht).trans (hone hform)
  · refine (if_neg ?_).trans ?_
    · rw [Node.is_of_kind hkind]
      decide
    · exact (boundBy_eq (by decide) ht).trans (hone hform)

def patternKinds : List String :=
  "Identifier" :: (nestings.filter (·.role = .pattern)).map (·.kind.name)

lemma boundAs_unknown (h : ∀ kind ∈ patternKinds, n.is kind = false) :
    boundAs .pattern n.toTree = .error (.unknownPattern n.kind) := by
  rw [boundAs_toTree, nodeBound]
  split
  · exact (not_kind h ‹_› (by decide)).elim
  · exact (not_kind h ‹_› (by decide)).elim
  · exact (not_kind h ‹_› (by decide)).elim
  · exact (not_kind h ‹_› (by decide)).elim
  · exact (not_kind h ‹_› (by decide)).elim
  · rfl

lemma boundAll_lowered {O : Fault → Prop} {P : Node → Prop} {ys : List Tree}
    (hseen : Forall₂ (Seen Lowers) xs ys)
    (hnode : ∀ c a d b, c.toTree ∈ xs → Lowers c a d b → Finds (P c) O (boundAs role d.toTree))
    (hhole : ∀ x ∈ xs, x.node? = none → isBinding role x = false) :
    Finds (Parts P (.list xs)) O (boundAll role ys) := by
  rw [parts_list]
  induction hseen with
  | nil => exact .inl ⟨by simp, [], rfl, by simp⟩
  | @cons x y xs ys hxy _ ih =>
    have hrest := ih (fun c a d b hc => hnode c a d b (by simp [hc]))
      fun x hx => hhole x (by simp [hx])
    rw [boundAll_cons]
    cases hxy with
    | @node c d a b hc =>
      rw [if_pos (by cases role <;> rfl)]
      refine ((hnode c a d b (by simp) hc).append hrest).congr ?_
      constructor
      · rintro ⟨hP, hall⟩ c' hc'
        rcases mem_cons.1 hc' with he | hc'
        · exact Node.toTree_injective he ▸ hP
        · exact hall c' hc'
      · intro hall
        exact ⟨hall c (by simp), fun c' hc' => hall c' (by simp [hc'])⟩
    | other hx =>
      rw [if_neg (by simp [hhole x (by simp) hx])]
      refine hrest.congr ⟨fun hall c hc => ?_, fun hall c hc => hall c (by simp [hc])⟩
      rcases mem_cons.1 hc with rfl | hc
      · cases hx
      · exact hall c hc

lemma nestings_spec : ∀ e ∈ nestings, e.kind.name ∉ dissolved ∧ e.key ∈ e.kind.children ∧
    ⟨e.kind, e.key, e.form⟩ ∈ requirements ∧
    (e.inner = .property → e.kind = .objectPattern ∧ e.key = "properties") ∧
    (e.form = .node ∨ e.form = .nodes ∨ e.form = .holes ∧ e.inner = .pattern) := by decide

theorem pattern_lowered (h : Lowers n p m q) (hc : CompleteBelow n)
    (hrole : role = .property → ∃ kind ∈ ["Property", "RestElement"], n.is kind = true) :
    Finds (Pattern role n) NotPattern (boundAs role m.toTree) := by
  induction hsize : n.toTree.size using Nat.strongRecOn generalizing role n m p q with
  | ind size ih =>
    by_cases hnest : ∃ e ∈ nestings, e.role = role ∧ n.is e.kind.name = true
    · obtain ⟨e, he, rfl, hk⟩ := hnest
      obtain ⟨hstays, hkey, hreq, hproperty, hforms⟩ := nestings_spec e he
      obtain ⟨q', hr, hmk⟩ := h.renewed_of_kind e.kind hk hstays
      have hkeys := childKeys_of_kind e.kind (Node.is_iff.1 hk)
      have hfits := hc.self.filled _ hreq hk
      have hmfits := fits_renewed hr e.form hfits
      -- The patterns in the field are smaller, and those of an object can stand there.
      have hinner {s : Visit.Slot} (hs : s ∈ slots n) (hskey : s.key = e.key) {a b : Progress State}
          {d : Node} (hl : Lowers s.child a d b) :
          Finds (Pattern e.inner s.child) NotPattern (boundAs e.inner d.toTree) := by
        refine ih _ (hsize ▸ mem_slots_size hs) hl (hc.child hs) (fun hi => ?_) rfl
        obtain ⟨hobject, hproperties⟩ := hproperty hi
        have hshape := hc.self.formed.shape
          ⟨.objectPattern, "properties", ["Property", "RestElement"]⟩ (by simp [shapes])
          (hobject ▸ hk)
        refine hshape _ ?_
        rw [← hproperties, ← hskey]
        exact part_of_slot hs
      refine Finds.congr ?_ (pattern_nested_iff he hk).symm
      have hlist {xs : List Tree} (hget : n.get? e.key = some (.list xs))
          (hhole : ∀ x ∈ xs, x.node? = none → isBinding e.inner x = false) :
          Finds (Parts (Pattern e.inner) (n.get e.key)) NotPattern (boundAs e.role m.toTree) := by
        obtain ⟨ys, hys, hseen⟩ := hr.items carries_lowers hkeys hkey hget
        rw [boundAs_nested he hmk hys (hys ▸ hmfits), Node.get, hget]
        refine boundAll_lowered (hseen.imp fun x y hxy => ?_) (fun c a d b hmem hl => ?_) hhole
        · cases hxy with
          | node hP => exact .node hP.1
          | other hx => exact .other hx
        · obtain ⟨i, hi⟩ := getElem?_of_mem hmem
          exact hinner (slot_of_item hkeys hkey hget hi) rfl hl
      rcases hforms with hform | hform | ⟨hform, hpattern⟩
      · rw [hform] at hfits
        obtain ⟨c, hget⟩ := fits_node hfits
        obtain ⟨d, a, b, hd, hl, -⟩ := hr.field carries_lowers hkeys hkey hget
        rw [boundAs_nested he hmk hd (hd ▸ hmfits), Node.get, hget]
        exact (hinner (slot_of_get? hkeys hkey hget) rfl hl).congr parts_toTree.symm
      · rw [hform] at hfits
        obtain ⟨cs, hget⟩ := fits_nodes hfits
        refine hlist hget fun x hx hno => ?_
        obtain ⟨c, -, rfl⟩ := List.mem_map.1 hx
        cases hno
      · rw [hform] at hfits
        obtain ⟨xs, hget, hnull⟩ := fits_holes hfits
        refine hlist hget fun x hx hno => ?_
        rw [hnull x hx hno, hpattern]
        rfl
    · cases role with
      | property =>
        obtain ⟨kind, hmem, hk⟩ := hrole rfl
        have hall : ∀ kind ∈ ["Property", "RestElement"],
            ∃ e ∈ nestings, e.role = .property ∧ e.kind.name = kind := by decide
        obtain ⟨e, he, hr, rfl⟩ := hall kind hmem
        exact absurd ⟨e, he, hr, hk⟩ hnest
      | pattern =>
        by_cases hi : n.is "Identifier" = true
        · obtain rfl := h.eq_of_name (by decide) hi
          obtain ⟨name, hname⟩ := hc.self.formed.name hi
          exact .one (.identifier hi) (Binds.bound (.identifier hi)) hname
        · refine .inr ⟨fun hp => ?_, _, boundAs_unknown fun kind hkind => ?_, .mk⟩
          · generalize hrole : Role.pattern = role at hp
            cases hp with
            | identifier hid => exact hi hid
            | nested he hk => exact hnest ⟨_, he, hrole.symm, hk⟩
          · have hall : ∀ kind ∈ patternKinds, kind ∉ resultKinds ∧ (kind = "Identifier" ∨
                ∃ e ∈ nestings, e.role = .pattern ∧ e.kind.name = kind) := by decide
            obtain ⟨hnot, hcases⟩ := hall kind hkind
            by_contra hm
            have hk := (h.renewed_of_result (by simpa using hm) hnot).1
            rcases hcases with rfl | ⟨e, he, hr, rfl⟩
            · exact hi hk
            · exact hnest ⟨e, he, hr, hk⟩

inductive Titled : Node → Prop
  | named {n id : Node} {kind : String} : kind ∈ namedKinds → n.is kind = true →
      n.get? "id" = some id.toTree → Titled n
  | exported {n d : Node} : n.is "ExportNamedDeclaration" = true →
      (n.get "source").isNull = true → n.get? "declaration" = some d.toTree → Titled d → Titled n
  | default {n d : Node} : n.is "ExportDefaultDeclaration" = true →
      n.get? "declaration" = some d.toTree → Titled d → Titled n

inductive Declaring : Node → Prop
  | binding {n : Node} : n.is "VariableDeclaration" = true →
      Parts (fun d => Parts (Pattern .pattern) (d.get "id")) (n.get "declarations") → Declaring n
  | naming {n : Node} {kind : String} : kind ∈ "ImportDeclaration" :: namedKinds →
      n.is kind = true → Declaring n
  | passed {n : Node} : n.is "ExportNamedDeclaration" = true → (n.get "source").isNull = false →
      Declaring n
  | exported {n d : Node} : n.is "ExportNamedDeclaration" = true →
      (n.get "source").isNull = true → n.get? "declaration" = some d.toTree → Declaring d →
      Declaring n
  | default {n d : Node} : n.is "ExportDefaultDeclaration" = true →
      n.get? "declaration" = some d.toTree → Titled d → Declaring n

section Kinds

variable {d : Node} {other : String} {kinds : List String}

lemma is_different (hk : n.is kind = true) (hne : kind ≠ other) : n.is other = false := by
  by_contra ho
  exact is_unique hk (by simpa using ho) hne

lemma is_outside (hmem : kind ∈ kinds) (hn : n.is kind = true) (hk : n.is other = true)
    (hne : other ∉ kinds) : False := is_unique hn hk fun he => hne (he ▸ hmem)

lemma titled_named (hmem : kind ∈ namedKinds) (hk : n.is kind = true) :
    Titled n ↔ ∃ id : Node, n.get? "id" = some id.toTree := by
  refine ⟨fun h => ?_, fun ⟨id, hid⟩ => .named hmem hk hid⟩
  cases h with
  | named _ _ hid => exact ⟨_, hid⟩
  | exported hn | default hn => exact (is_outside hmem hk hn (by decide)).elim

lemma titled_exported (hk : n.is "ExportNamedDeclaration" = true) : Titled n ↔
    (n.get "source").isNull = true ∧ ∃ d : Node, n.get? "declaration" = some d.toTree ∧ Titled d := by
  refine ⟨fun h => ?_, fun ⟨hs, d, hd, ht⟩ => .exported hk hs hd ht⟩
  cases h with
  | named hmem hn => exact (is_outside hmem hn hk (by decide)).elim
  | exported _ hs hd ht => exact ⟨hs, _, hd, ht⟩
  | default hn => exact (is_unique hn hk (by decide)).elim

lemma titled_default (hk : n.is "ExportDefaultDeclaration" = true) : Titled n ↔
    ∃ d : Node, n.get? "declaration" = some d.toTree ∧ Titled d := by
  refine ⟨fun h => ?_, fun ⟨d, hd, ht⟩ => .default hk hd ht⟩
  cases h with
  | named hmem hn => exact (is_outside hmem hn hk (by decide)).elim
  | exported hn => exact (is_unique hn hk (by decide)).elim
  | default _ hd ht => exact ⟨_, hd, ht⟩

lemma declaring_binding (hk : n.is "VariableDeclaration" = true) : Declaring n ↔
    Parts (fun d => Parts (Pattern .pattern) (d.get "id")) (n.get "declarations") := by
  refine ⟨fun h => ?_, .binding hk⟩
  cases h with
  | binding _ hparts => exact hparts
  | naming hmem hn => exact (is_outside hmem hn hk (by decide)).elim
  | passed hn | exported hn | default hn => exact (is_unique hn hk (by decide)).elim

lemma declaring_exported (hk : n.is "ExportNamedDeclaration" = true)
    (hs : (n.get "source").isNull = true) : Declaring n ↔
      ∃ d : Node, n.get? "declaration" = some d.toTree ∧ Declaring d := by
  refine ⟨fun h => ?_, fun ⟨d, hd, ht⟩ => .exported hk hs hd ht⟩
  cases h with
  | binding hn => exact (is_unique hn hk (by decide)).elim
  | naming hmem hn => exact (is_outside hmem hn hk (by decide)).elim
  | passed _ hno => exact absurd (hs.symm.trans hno) (by decide)
  | exported _ _ hd ht => exact ⟨_, hd, ht⟩
  | default hn => exact (is_unique hn hk (by decide)).elim

lemma declaring_default (hk : n.is "ExportDefaultDeclaration" = true) : Declaring n ↔
    ∃ d : Node, n.get? "declaration" = some d.toTree ∧ Titled d := by
  refine ⟨fun h => ?_, fun ⟨d, hd, ht⟩ => .default hk hd ht⟩
  cases h with
  | binding hn => exact (is_unique hn hk (by decide)).elim
  | naming hmem hn => exact (is_outside hmem hn hk (by decide)).elim
  | passed hn | exported hn => exact (is_unique hn hk (by decide)).elim
  | default _ hd ht => exact ⟨_, hd, ht⟩

def declaringKinds : List String :=
  "ExportNamedDeclaration" :: "ExportDefaultDeclaration" :: "VariableDeclaration" ::
    "ImportDeclaration" :: namedKinds

lemma not_declaring (h : ∀ kind ∈ declaringKinds, n.is kind = false) : ¬Declaring n := by
  have hno {kind : String} (hk : n.is kind = true) : kind ∈ declaringKinds → False :=
    not_kind h (Node.is_iff.1 hk)
  intro hd
  cases hd with
  | binding hn => exact hno hn (by decide)
  | naming hmem hn => exact hno hn (.tail _ (.tail _ (.tail _ hmem)))
  | passed hn | exported hn | default hn => exact hno hn (by decide)

lemma Titled.declaring (h : Titled n) : Declaring n := by
  induction h with
  | named hmem hn => exact .naming (.tail _ hmem) hn
  | exported hn hs hd _ ih => exact .exported hn hs hd ih
  | default hn hd ht => exact .default hn hd ht

lemma parts_nodes {P : Node → Prop} {cs : List Node} :
    Parts P (.list (cs.map Node.toTree)) ↔ ∀ c ∈ cs, P c := by
  rw [parts_list]
  refine ⟨fun h c hc => h c (List.mem_map_of_mem hc), fun h c hc => ?_⟩
  obtain ⟨d, hd, heq⟩ := List.mem_map.1 hc
  exact Node.toTree_injective heq ▸ h d hd

lemma exists_field_iff {P : Node → Prop} {key : String} (hd : n.get? key = some d.toTree) :
    (∃ c : Node, n.get? key = some c.toTree ∧ P c) ↔ P d := by
  refine ⟨fun ⟨c, hc, hP⟩ => ?_, fun hP => ⟨d, hd, hP⟩⟩
  rwa [Node.toTree_injective (some.inj (hd.symm.trans hc))]

lemma kind_of_toTree {i : Nat} {fields : List (String × Tree)}
    (h : n.toTree = .node i (.str kind) fields) : n.kind = .str kind :=
  congrArg Node.kind (Node.toTree_injective (m := ⟨i, .str kind, fields⟩) h)

lemma not_named (hk : n.kind = .str kind) (hne : kind ∉ namedKinds) :
    ¬∃ kind ∈ namedKinds, n.is kind = true := by
  rintro ⟨other, hmem, hother⟩
  rw [is_other hk hne other hmem] at hother
  cases hother

lemma among_named (h : ∃ kind ∈ namedKinds, n.is kind = true) :
    n.kind.among namedKinds = .ok true := by
  obtain ⟨kind, hmem, hk⟩ := h
  rw [Node.is_iff.1 hk]
  exact congrArg ok (contains_iff_mem.2 hmem)

end Kinds

lemma other_of_plain (hplain : ∀ kind ∈ moduleKinds, n.is kind = false)
    (hv : n.is "VariableDeclaration" = false) (hn : ¬∃ kind ∈ namedKinds, n.is kind = true) :
    ∀ kind ∈ declaringKinds, n.is kind = false := by
  have hnamed : ∀ kind ∈ namedKinds, n.is kind = false := by
    intro kind hmem
    by_contra hk
    exact hn ⟨kind, hmem, by simpa using hk⟩
  simp only [declaringKinds, forall_mem_cons]
  exact ⟨hplain _ (by decide), hplain _ (by decide), hv, hplain _ (by decide), hnamed⟩

def KeepsTitle (n m : Node) : Prop :=
  (Titled n ∧ ∃ kind ∈ namedKinds, m.is kind = true ∧
      ∃ (id : Node) (name : Tree), m.get? "id" = some id.toTree ∧ id.get? "name" = some name) ∨
    ¬Titled n ∧ ((∃ kind ∈ namedKinds, m.is kind = true) → m.get "id" = .null)

lemma KeepsTitle.congr {d : Node} (h : KeepsTitle c d) (hn : Titled n ↔ Titled c) :
    KeepsTitle n d := by
  rwa [KeepsTitle, hn]

lemma KeepsTitle.of_kind (hn : ¬Titled n) (hm : m.kind = .str kind) (hne : kind ∉ namedKinds) :
    KeepsTitle n m :=
  .inr ⟨hn, fun hnamed => absurd hnamed (not_named hm hne)⟩

lemma id_renewed {id : Node} (hr : Renewed Lowers n p m q) (hc : CompleteBelow n)
    (hmem : kind ∈ namedKinds) (hk : n.is kind = true) (hget : n.get? "id" = some id.toTree) :
    m.get? "id" = some id.toTree ∧ ∃ name, id.get? "name" = some (.str name) := by
  have hall : ∀ kind ∈ namedKinds, ∃ K ∈ [Kind.functionDeclaration, .classDeclaration],
      K.name = kind ∧ "id" ∈ K.children := by decide
  obtain ⟨K, hK, rfl, hkey⟩ := hall kind hmem
  have hshape := hc.self.formed.shape ⟨K, "id", ["Identifier"]⟩
    (by rcases mem_pair.1 hK with rfl | rfl <;> simp [shapes]) hk
  rw [Node.get, hget] at hshape
  have hi : id.is "Identifier" = true := by simpa using parts_toTree.1 hshape
  have hs := slot_of_get? (childKeys_of_kind K (Node.is_iff.1 hk)) hkey hget
  exact ⟨lowered_name hr K hk hkey (by decide) hi hget, (hc.child hs).self.formed.name hi⟩

lemma inner_lowered (hr : Renewed Lowers n p m q) (hc : CompleteBelow n) (K : Kind)
    (hk : n.is K.name = true) {key : String} (hkey : key ∈ K.children)
    (hget : n.get? key = some c.toTree) : ∃ d : Node, m.get? key = some d.toTree ∧
      CompleteBelow c ∧ c.toTree.size < n.toTree.size ∧ ∃ a b, Lowers c a d b := by
  have hkeys := childKeys_of_kind K (Node.is_iff.1 hk)
  have hs := slot_of_get? hkeys hkey hget
  obtain ⟨d, a, b, hd, hl, -⟩ := hr.field carries_lowers hkeys hkey hget
  exact ⟨d, hd, hc.child hs, mem_slots_size hs, a, b, hl⟩

lemma default_lowered (hr : Renewed Lowers n p m q) (hc : CompleteBelow n)
    (hk : n.is "ExportDefaultDeclaration" = true) : ∃ c d : Node,
      n.get? "declaration" = some c.toTree ∧ m.get? "declaration" = some d.toTree ∧
      CompleteBelow c ∧ c.toTree.size < n.toTree.size ∧ ∃ a b, Lowers c a d b := by
  obtain ⟨c, hget⟩ := fits_node (hc.self.filled
    ⟨.exportDefaultDeclaration, "declaration", .node⟩ (by decide) hk)
  obtain ⟨d, hd⟩ := inner_lowered hr hc .exportDefaultDeclaration hk (by decide) hget
  exact ⟨c, d, hget, hd⟩

lemma exported_lowered (hr : Renewed Lowers n p m q) (hc : CompleteBelow n)
    (hk : n.is "ExportNamedDeclaration" = true) (hdecl : (n.get "declaration").isNull = false) :
    ∃ c d : Node, n.get? "declaration" = some c.toTree ∧ m.get? "declaration" = some d.toTree ∧
      CompleteBelow c ∧ c.toTree.size < n.toTree.size ∧ ∃ a b, Lowers c a d b := by
  rcases fits_optional (hc.self.filled ⟨.exportNamedDeclaration, "declaration", .optional⟩
    (by decide) hk) with hno | ⟨c, hget⟩
  · rw [hno] at hdecl
    cases hdecl
  · obtain ⟨d, hd⟩ := inner_lowered hr hc .exportNamedDeclaration hk (by decide) hget
    exact ⟨c, d, hget, hd⟩

lemma KeepsTitle.not_titled {d : Node} {named : Bool} (h : KeepsTitle c d)
    (hamong : d.kind.among namedKinds = .ok named)
    (hnull : named = true → (d.get "id").isNull = true) : ¬Titled c := by
  rcases h with ⟨-, kind, hmem, hk, id, -, hid, -⟩ | ⟨hnot, -⟩
  · obtain rfl := ok.inj (hamong.symm.trans (among_named ⟨kind, hmem, hk⟩))
    have := hnull rfl
    simp [Node.get, Node.toTree, hid, Tree.isNull] at this
  · exact hnot

lemma titled_lowered (h : Lowers n p m q) (hc : CompleteBelow n) : KeepsTitle n m := by
  induction hsize : n.toTree.size using Nat.strongRecOn generalizing n m p q with
  | ind size ih =>
    rcases h.cases with ⟨q', hr, hplain⟩ | ⟨⟨kind, hmem, hk⟩, result, hresult, hm⟩ |
      ⟨m', q', k, s, hr, hd⟩
    · by_cases hnamed : ∃ kind ∈ namedKinds, n.is kind = true
      · obtain ⟨kind, hmem, hk⟩ := hnamed
        have hall : ∀ kind ∈ namedKinds, ∃ K ∈ [Kind.functionDeclaration, .classDeclaration],
            K.name = kind ∧ ⟨K, "id", .optional⟩ ∈ requirements := by decide
        obtain ⟨K, -, rfl, hreq⟩ := hall kind hmem
        rcases fits_optional (hc.self.filled _ hreq hk) with hnull | ⟨c, hget⟩
        · refine .inr ⟨fun ht => ?_, fun _ => ?_⟩
          · obtain ⟨id, hid⟩ := (titled_named hmem hk).1 ht
            simp [Node.get, hid, Node.toTree] at hnull
          · exact isNull_iff.1 (hr.isNull (isNull_iff.2 hnull))
        · obtain ⟨hid, name, hname⟩ := id_renewed hr hc hmem hk hget
          exact .inl ⟨.named hmem hk hget, K.name, hmem, hr.is _ ▸ hk, c, .str name, hid, hname⟩
      · refine .inr ⟨fun ht => ?_, ?_⟩
        · cases ht with
          | named hmem hn => exact hnamed ⟨_, hmem, hn⟩
          | exported hn => simp [hplain "ExportNamedDeclaration" (by decide)] at hn
          | default hn => simp [hplain "ExportDefaultDeclaration" (by decide)] at hn
        · rintro ⟨kind, hmem, hk⟩
          exact absurd ⟨kind, hmem, hr.is kind ▸ hk⟩ hnamed
    · have hresults : ∀ kind ∈ operatorResults, kind ∉ namedKinds := by decide
      have hoperators : ∀ kind ∈ operands.map (·.1), kind ∉ declaringKinds := by decide
      refine .of_kind (fun ht => ?_) hm (hresults result hresult)
      exact not_declaring (is_other (Node.is_iff.1 hk) (hoperators kind hmem)) ht.declaring
    · have hnull := isNull_renewed hr
      generalize hm : m.toTree = t at hd
      cases hd with
      | importAll hk | importNames hk =>
        rw [hr.is] at hk
        refine .of_kind (fun ht => ?_) (kind_of_toTree hm) (by decide)
        cases ht with
        | named hmem hn => exact is_outside hmem hn hk (by decide)
        | exported hn | default hn => exact is_unique hn hk (by decide)
      | @exportFrom specifiers source _ _ _ _ hk _ hs hsource =>
        rw [hr.is] at hk
        refine .of_kind (fun ht => ?_) (kind_of_toTree hm) (by decide)
        obtain ⟨hno, -⟩ := (titled_exported hk).1 ht
        rw [← hnull, Node.get, hs] at hno
        exact absurd (hno.symm.trans hsource) (by decide)
      | exportDeclared hk hs hdecl =>
        rw [hr.is] at hk
        rw [hnull] at hs hdecl
        obtain ⟨c, d, hget, hd, hcc, hlt, a, b, hl⟩ := exported_lowered hr hc hk hdecl
        rw [Node.get, hd] at hm
        obtain rfl := Node.toTree_injective hm
        exact (ih _ (hsize ▸ hlt) hl hcc rfl).congr ((titled_exported hk).trans
          ((and_iff_right hs).trans (exists_field_iff hget)))
      | exportLocals hk hs hdecl =>
        rw [hr.is] at hk
        rw [hnull] at hdecl
        refine .of_kind (fun ht => ?_) (kind_of_toTree hm) (by decide)
        obtain ⟨-, d, hd, -⟩ := (titled_exported hk).1 ht
        simp [Node.get, hd, Node.toTree, Tree.isNull] at hdecl
      | exportDefaultName hk hd =>
        rw [hr.is] at hk
        obtain ⟨c, d, hget, hd', hcc, hlt, a, b, hl⟩ := default_lowered hr hc hk
        obtain rfl := some.inj (hd.symm.trans hd')
        obtain rfl := Node.toTree_injective hm
        exact (ih _ (hsize ▸ hlt) hl hcc rfl).congr
          ((titled_default hk).trans (exists_field_iff hget))
      | exportDefaultValue hk hd hid hkind hamong hidnull =>
        rw [hr.is] at hk
        obtain ⟨c, d, hget, hd', hcc, hlt, a, b, hl⟩ := default_lowered hr hc hk
        obtain rfl := some.inj (hd.symm.trans hd')
        obtain rfl := ok.inj hid
        obtain rfl := ok.inj hkind
        refine .of_kind (fun ht => ?_) (kind_of_toTree hm) (by decide)
        exact (ih _ (hsize ▸ hlt) hl hcc rfl).not_titled hamong hidnull
          ((exists_field_iff hget).1 ((titled_default hk).1 ht))
      | exportAll hk =>
        rw [hr.is] at hk
        refine .of_kind (fun ht => ?_) (kind_of_toTree hm) (by decide)
        exact not_declaring (is_other (Node.is_iff.1 hk) (by decide)) ht.declaring

section Bound

variable {O : Fault → Prop} {P : Prop}

lemma finds_identifier {v : Node} (hv : v.is "Identifier" = true) {name : Tree}
    (hname : v.get? "name" = some name) : Finds True O (boundAs .pattern v.toTree) :=
  .one trivial (Binds.bound (.identifier hv)) hname

lemma finds_property {key v : Tree} (h : Finds P O (boundAs .pattern v)) :
    Finds P O (boundAs .property (plainProperty key v k).1) := by
  have hvalue : boundAs .property (plainProperty key v k).1 = boundAs .pattern v :=
    boundBy_eq (n := ⟨k, .str "Property", _⟩) (by decide) rfl
  rwa [hvalue]

lemma finds_all {ts : List Tree} (h : ∀ t ∈ ts, Finds True O (boundAs role t)) :
    Finds True O (boundAll role ts) := by
  induction ts with
  | nil => exact .inl ⟨trivial, [], rfl, by simp⟩
  | cons t ts ih =>
    have hrest := ih fun u hu => h u (by simp [hu])
    rw [boundAll_cons]
    split
    · exact ((h t (by simp)).append hrest).congr (by simp)
    · exact hrest

lemma boundNames_objectPattern (ps : List Tree) (k : Nat) :
    boundNames (Build.objectPattern ps k).1 = boundAll .property ps :=
  boundByAll_eq (n := ⟨k, .str "ObjectPattern", [("properties", .list ps)]⟩) .property
    (show "properties" ≠ "type" by decide) rfl

def declaratorNames (d : Tree) : Except Fault (List Tree) := do boundNames (← d.attr "id")

def declaratorsNames (ds : List Tree) : Except Fault (List Tree) := do
  return (← ds.mapM declaratorNames).flatten

lemma declaratorsNames_cons (d : Tree) (ds : List Tree) : declaratorsNames (d :: ds) = (do
    return (← declaratorNames d) ++ (← declaratorsNames ds)) := by
  simp only [declaratorsNames, mapM_cons]
  generalize declaratorNames d = r
  generalize ds.mapM declaratorNames = rs
  cases r with
  | error e => rfl
  | ok names =>
    cases rs with
    | error e => rfl
    | ok rest => rfl

lemma declaredNames_binding (hn : n.is "VariableDeclaration" = true) {ds : List Tree}
    (hd : n.get? "declarations" = some (.list ds)) :
    declaredNames n.toTree = declaratorsNames ds := by
  have hkind : n.toTree.kind = .ok (.str "VariableDeclaration") :=
    congrArg ok (Node.is_iff.1 hn)
  have hattr : n.toTree.attr "declarations" = .ok (.list ds) := attr_eq_ok.2 hd
  rw [declaredNames, hkind]
  change (n.toTree.attr "declarations" >>= _) = _
  rw [hattr]
  rfl

lemma finds_constant {id init : Tree} (h : Finds P O (boundNames id)) :
    Finds P O (declaredNames (constantOf k id init)) := by
  have hnames : declaredNames (constantOf k id init) =
      declaratorsNames [(Build.declarator id init k).1] :=
    declaredNames_binding (n := ⟨k + 1, .str "VariableDeclaration", _⟩) rfl rfl
  rw [hnames, declaratorsNames_cons]
  refine (Finds.append h (s := declaratorsNames []) (Q := True) ?_).congr (by simp)
  exact .inl ⟨trivial, [], rfl, by simp⟩

lemma declaredNames_other (h : ∀ kind ∈ "VariableDeclaration" :: namedKinds, n.is kind = false) :
    declaredNames n.toTree = .error (.unknownDeclaration n.kind) := by
  have hkind : n.toTree.kind = .ok n.kind := rfl
  simp only [declaredNames, hkind, ok_bind]
  split
  · exact (not_kind h ‹_› (by decide)).elim
  · exact (not_kind h ‹_› (by decide)).elim
  · exact (not_kind h ‹_› (by decide)).elim
  · rfl

lemma Destructures.found {xs ps : List Tree} {k j : Nat} (h : Destructures xs k ps j)
    (hx : ∀ x ∈ xs, ∀ kind ∈ ["ImportDefaultSpecifier", "ImportSpecifier"],
      x.kind = .ok (.str kind) → ∀ bound, x.attr "local" = .ok bound →
      Finds True O (boundAs .pattern bound)) : ∀ t ∈ ps, Finds True O (boundAs .property t) := by
  induction h with
  | nil => simp
  | default hkind hlocal _ ih | named hkind _ hlocal _ ih =>
    refine forall_mem_cons.2 ⟨finds_property ?_, ih fun x hmem => hx x (by simp [hmem])⟩
    exact hx _ (by simp) _ (by decide) hkind _ hlocal

lemma PassesOn.found {ps : List Tree} {j : Nat} {s s' : State} (h : PassesOn xs k s ps j s') :
    ∀ t ∈ ps, Finds True O (boundAs .property t) := by
  induction h with
  | nil => simp
  | @cons x bound exported xs ps k j s s' _ _ _ ih =>
    refine forall_mem_cons.2 ⟨finds_property ?_, ih⟩
    exact finds_identifier (v := ⟨k, .str "Identifier", _⟩) rfl rfl

lemma declarators_found {cs ds : List Node}
    (h : Forall₂ (fun c d => CompleteBelow c ∧ ∃ a b, Lowers c a d b) cs ds)
    (hk : ∀ c ∈ cs, c.is "VariableDeclarator" = true) :
    Finds (∀ c ∈ cs, Parts (Pattern .pattern) (c.get "id")) NotPattern
      (declaratorsNames (ds.map Node.toTree)) := by
  induction h with
  | nil => exact .inl ⟨by simp, [], rfl, by simp⟩
  | @cons c d cs ds hcd _ ih =>
    obtain ⟨hc, a, b, hl⟩ := hcd
    have hck := hk c (by simp)
    have hkeys := childKeys_of_kind .variableDeclarator (Node.is_iff.1 hck)
    obtain ⟨x, hx⟩ := fits_node
      (hc.self.filled ⟨.variableDeclarator, "id", .node⟩ (by decide) hck)
    obtain ⟨b', hr, -⟩ := hl.renewed_of_kind .variableDeclarator hck (by decide)
    obtain ⟨y, a, b, hy, hxy, -⟩ := hr.field carries_lowers hkeys (by decide) hx
    have hnames : declaratorNames d.toTree = boundAs .pattern y.toTree := by
      have hid : d.toTree.attr "id" = .ok y.toTree := attr_eq_ok.2 hy
      rw [declaratorNames, hid]
      rfl
    have hfirst : Finds (Parts (Pattern .pattern) (c.get "id")) NotPattern
        (declaratorNames d.toTree) := by
      have hfound : Finds (Pattern .pattern x) NotPattern (boundAs .pattern y.toTree) :=
        pattern_lowered hxy (hc.child (slot_of_get? hkeys (by decide) hx)) nofun
      rw [hnames, Node.get, hx]
      exact hfound.congr parts_toTree.symm
    rw [map_cons, declaratorsNames_cons]
    refine (hfirst.append (ih fun c hmem => hk c (by simp [hmem]))).congr ?_
    rw [forall_mem_cons]

end Bound

lemma import_found {d : Node} {a b : Progress State} (h : Lowers c a d b) (hc : CompleteBelow c)
    (hmem : kind ∈ ["ImportDefaultSpecifier", "ImportSpecifier"]) (hk : d.is kind = true)
    {bound : Tree} (hlocal : d.get? "local" = some bound) {O : Fault → Prop} :
    Finds True O (boundAs .pattern bound) := by
  have hall : ∀ kind ∈ ["ImportDefaultSpecifier", "ImportSpecifier"], kind ∉ resultKinds ∧
      ∃ K ∈ [Kind.importDefaultSpecifier, .importSpecifier], K.name = kind ∧
        "local" ∈ K.children ∧ ⟨K, "local", .node⟩ ∈ requirements := by decide
  obtain ⟨hnot, K, hK, rfl, hkey, hreq⟩ := hall kind hmem
  obtain ⟨hck, b', hr⟩ := h.renewed_of_result hk hnot
  obtain ⟨x, hx⟩ := fits_node (hc.self.filled _ hreq hck)
  have hshape := hc.self.bound ⟨K, "local", ["Identifier"]⟩
    (by rcases mem_pair.1 hK with rfl | rfl <;> simp [importShapes]) hck
  rw [Node.get, hx] at hshape
  have hi : x.is "Identifier" = true := by simpa using parts_toTree.1 hshape
  have hkeys := childKeys_of_kind K (Node.is_iff.1 hck)
  obtain ⟨name, hname⟩ := (hc.child (slot_of_get? hkeys hkey hx)).self.formed.name hi
  have hd := lowered_name hr K hck hkey (by decide) hi hx
  obtain rfl := some.inj (hlocal.symm.trans hd)
  exact finds_identifier hi hname

inductive NotDeclaration (n : Node) : Fault → Prop
  | other {kind : Tree} : n.is "VariableDeclaration" = false →
      NotDeclaration n (.unknownDeclaration kind)
  | pattern {kind : Tree} : n.is "VariableDeclaration" = true →
      NotDeclaration n (.unknownPattern kind)

lemma Finds.other (hn : ¬Declaring n) (hv : n.is "VariableDeclaration" = false)
    (hm : m.kind = .str kind) (hne : kind ∉ "VariableDeclaration" :: namedKinds) :
    Finds (Declaring n) (NotDeclaration n) (declaredNames m.toTree) :=
  .inr ⟨hn, _, declaredNames_other (is_other hm hne), .other hv⟩

theorem declared_lowered (h : Lowers n p m q) (hc : CompleteBelow n)
    (hid : (∃ kind ∈ namedKinds, n.is kind = true) → Form.node.fits (n.get? "id") = true) :
    Finds (Declaring n) (NotDeclaration n) (declaredNames m.toTree) := by
  induction hsize : n.toTree.size using Nat.strongRecOn generalizing n m p q with
  | ind size ih =>
    rcases h.cases with ⟨q', hr, hplain⟩ | ⟨⟨kind, hmem, hk⟩, result, hresult, hm⟩ |
      ⟨m', q', k, s, hr, hd⟩
    · by_cases hv : n.is "VariableDeclaration" = true
      · obtain ⟨cs, ds, hcs, hds, hall⟩ := hc.items hr .variableDeclaration hv "declarations"
          (by decide) (by decide)
        have hshape := hc.self.formed.shape
          ⟨.variableDeclaration, "declarations", ["VariableDeclarator"]⟩ (by simp [shapes]) hv
        rw [Node.get, hcs] at hshape
        have hfound := declarators_found hall fun c hmem => by
          simpa using parts_nodes.1 hshape c hmem
        rw [declaredNames_binding (hr.is _ ▸ hv) hds]
        refine (hfound.mono fun fault hf => ?_).congr ?_
        · cases hf with
          | mk => exact .pattern hv
        · rw [declaring_binding hv, Node.get, hcs]
          exact parts_nodes.symm
      by_cases hnamed : ∃ kind ∈ namedKinds, n.is kind = true
      · obtain ⟨x, hx⟩ := fits_node (hid hnamed)
        obtain ⟨kind, hmem, hk⟩ := hnamed
        obtain ⟨hid', name, hname⟩ := id_renewed hr hc hmem hk hx
        exact .one (.naming (.tail _ hmem) hk)
          (declaredNames_eq_ok_iff.2 (.named hmem (hr.is _ ▸ hk) hid')) hname
      · have hother := other_of_plain hplain (by simpa using hv) hnamed
        refine .inr ⟨not_declaring hother, _, declaredNames_other fun kind hmem => ?_,
          .other (by simpa using hv)⟩
        rw [hr.is]
        refine hother kind ?_
        rcases mem_cons.1 hmem with rfl | hmem
        · decide
        · exact .tail _ (.tail _ (.tail _ (.tail _ hmem)))
    · have hresults : ∀ kind ∈ operatorResults, kind ∉ "VariableDeclaration" :: namedKinds := by
        decide
      have hoperators : ∀ kind ∈ operands.map (·.1), kind ∉ declaringKinds := by decide
      have hother := is_other (Node.is_iff.1 hk) (hoperators kind hmem)
      exact .other (not_declaring hother) (hother _ (by decide)) hm (hresults result hresult)
    · have hnull := isNull_renewed hr
      generalize hm : m.toTree = t at hd
      cases hd with
      | importAll hk _ _ _ _ hname =>
        rw [hr.is] at hk
        refine (finds_constant ?_).congr (iff_of_true trivial (.naming (by decide) hk))
        exact finds_identifier (v := ⟨_, .str "Identifier", _⟩) rfl rfl
      | importNames hk hspec _ helems hps =>
        rw [hr.is] at hk
        obtain ⟨cs, ds, -, hds, hall⟩ := hc.items hr .importDeclaration hk "specifiers"
          (by decide) (by decide)
        obtain rfl := some.inj (hspec.symm.trans hds)
        obtain rfl := ok.inj helems
        refine (finds_constant ?_).congr (iff_of_true trivial (.naming (by decide) hk))
        rw [boundNames_objectPattern]
        refine finds_all (hps.found fun x hx kind hmem hkind bound hlocal => ?_)
        obtain ⟨d, hd, rfl⟩ := List.mem_map.1 hx
        obtain ⟨c, -, hc, a, b, hl⟩ := exists_of_forall₂ hall hd
        exact import_found hl hc hmem (Node.is_iff.2 (ok.inj hkind)) (attr_eq_ok.1 hlocal)
      | exportFrom hk _ hs hsource _ hps =>
        rw [hr.is] at hk
        have hno : (n.get "source").isNull = false := by
          rw [← hnull, Node.get, hs]
          exact hsource
        refine (finds_constant ?_).congr (iff_of_true trivial (.passed hk hno))
        rw [boundNames_objectPattern]
        exact finds_all hps.found
      | exportDeclared hk hs hdecl hnames =>
        rw [hr.is] at hk
        have hnamed := hc.self.named hk
        rw [hnull] at hs hdecl
        obtain ⟨c, d, hget, hd, hcc, hlt, a, b, hl⟩ := exported_lowered hr hc hk hdecl
        rw [Node.get, hget] at hnamed
        have hfound := ih _ (hsize ▸ hlt) hl hcc (parts_toTree.1 hnamed) rfl
        rw [Node.get, hd] at hnames ⊢
        rcases hfound with ⟨hdeclaring, hfound⟩ | ⟨-, fault, hfault, -⟩
        · exact .inl ⟨.exported hk hs hget hdeclaring, hfound⟩
        · cases hfault.symm.trans hnames
      | exportLocals hk hs hdecl =>
        rw [hr.is] at hk
        rw [hnull] at hs hdecl
        rw [← hm]
        refine .other (fun hd => ?_) (is_different hk (by decide)) (kind_of_toTree hm) (by decide)
        obtain ⟨d, hd, -⟩ := (declaring_exported hk hs).1 hd
        simp [Node.get, hd, Node.toTree, Tree.isNull] at hdecl
      | exportDefaultName hk hd hid hkind hamong hidnull =>
        rw [hr.is] at hk
        obtain ⟨c, d, hget, hd', hcc, -, a, b, hl⟩ := default_lowered hr hc hk
        obtain rfl := some.inj (hd.symm.trans hd')
        obtain rfl := ok.inj hid
        rcases titled_lowered hl hcc with ⟨ht, kind, hmem, hdk, id, name, hid, hname⟩ | ⟨-, hnull⟩
        · exact .one (.default hk hget ht) (declaredNames_eq_ok_iff.2 (.named hmem hdk hid)) hname
        · obtain rfl := ok.inj hkind
          obtain ⟨kind, hdk, hmem⟩ := among_eq_true hamong
          have hidnull : (d.get "id").isNull = false := hidnull
          rw [hnull ⟨kind, hmem, Node.is_iff.2 hdk⟩] at hidnull
          cases hidnull
      | exportDefaultValue hk hd hid hkind hamong hidnull =>
        rw [hr.is] at hk
        obtain ⟨c, d, hget, hd', hcc, -, a, b, hl⟩ := default_lowered hr hc hk
        obtain rfl := some.inj (hd.symm.trans hd')
        obtain rfl := ok.inj hid
        obtain rfl := ok.inj hkind
        rw [← hm]
        refine .other (fun hdec => ?_) (is_different hk (by decide)) (kind_of_toTree hm) (by decide)
        exact (titled_lowered hl hcc).not_titled hamong hidnull
          ((exists_field_iff hget).1 ((declaring_default hk).1 hdec))
      | exportAll hk =>
        rw [hr.is] at hk
        rw [← hm]
        have hother : ∀ kind ∈ declaringKinds, n.is kind = false :=
          is_other (Node.is_iff.1 hk) (by decide)
        exact .other (not_declaring hother) (hother _ (by decide)) (kind_of_toTree hm) (by decide)

end Overload.Lowering
