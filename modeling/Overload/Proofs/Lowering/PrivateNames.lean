import Overload.Proofs.Lowering.Done
import Overload.Proofs.Lowering.Scope
import Overload.Proofs.Lowering.Survival

/-! Private names. -/

namespace Overload

open Overload.Tree List Entries Option

variable {n c : Node} {t : Tree}

variable {name right value token x : Tree} {xs : List Tree} {keys : List String} {P : Node → Prop}

namespace Tree

mutual

def holdsPrivate : Tree → Bool
  | .node id kind fields => (⟨id, kind, fields⟩ : Node).is "PrivateIdentifier"
  | .list xs => anyPrivate xs
  | _ => false
termination_by structural t => t

def anyPrivate : List Tree → Bool
  | [] => false
  | x :: xs => holdsPrivate x || anyPrivate xs
termination_by structural xs => xs

end

lemma holdsPrivate_list : (list xs).holdsPrivate = true ↔ ∃ x ∈ xs, x.holdsPrivate = true := by
  rw [holdsPrivate]
  induction xs with
  | nil => simp [anyPrivate]
  | cons x xs ih => simp [anyPrivate, ih]

lemma holdsPrivate_toTree (n : Node) : n.toTree.holdsPrivate = n.is "PrivateIdentifier" := rfl

lemma is_toTree (n : Node) (kind : String) : n.toTree.is kind = n.is kind := rfl

end Tree

namespace Node

def admitsPrivate (n : Node) (key : String) : Bool :=
  n.is "MemberExpression" && key == "property" && !(n.get "computed").truthy ||
    (n.is "MethodDefinition" || n.is "PropertyDefinition") && key == "key" ||
    n.is "BinaryExpression" && key == "left" && (n.get "operator").isText "in"

def Placed (n : Node) : Prop :=
  ∀ f ∈ n.fields, f.2.holdsPrivate = true →
    f.2.is "PrivateIdentifier" = true ∧ n.admitsPrivate f.1 = true

instance : DecidablePred Placed := fun n => inferInstanceAs (Decidable (∀ f ∈ n.fields, _))

def checksBrand (n : Node) : Bool :=
  n.is "BinaryExpression" && (n.get "operator").isText "in" &&
    (n.get "left").is "PrivateIdentifier"

lemma checksBrand_iff : n.checksBrand = true ↔ n.is "BinaryExpression" = true ∧
    n.get? "operator" = some (.str "in") ∧
    ∃ x : Node, n.get? "left" = some x.toTree ∧ x.is "PrivateIdentifier" = true := by
  simp only [checksBrand, Bool.and_eq_true, and_assoc]
  refine and_congr_right fun _ => and_congr ⟨fun h => ?_, fun h => ?_⟩ ⟨fun h => ?_, ?_⟩
  · unfold isText at h
    split at h
    · rename_i u hu
      rw [beq_iff_eq] at h
      exact get?_of_get (h ▸ hu) (by simp)
    · cases h
  · rw [get, h]
    rfl
  · cases hl : n.get "left" with
    | node id kind fields =>
      rw [hl] at h
      exact ⟨⟨id, kind, fields⟩, get?_of_get hl (by simp [toTree]), h⟩
    | _ =>
      rw [hl] at h
      cases h
  · rintro ⟨x, hx, hp⟩
    rw [get, hx]
    exact hp

end Node

namespace Lowering

open Visit

def ChecksByHelper (helper : Option String) (n : Node) : Prop :=
  ∃ i name x right, helper = some name ∧ x.is "PrivateIdentifier" = true ∧
    right.holdsPrivate = false ∧
    { n with id := i + 2 }.toTree = dispatchCall i name x (.str "in") right

def Abides (reason : Prop) (helper : Option String) (n : Node) : Prop :=
  n.Placed ∨ reason ∧ ChecksByHelper helper n

structure Clear (reason : Prop) (helper : Option String) (t : Tree) : Prop where
  every : t.Every (Abides reason helper)
  free : t.holdsPrivate = false

variable {reason : Prop} {helper : Option String}

section Building

lemma clear_flat (hn : t.isNode = false) (hl : ∀ xs, t ≠ .list xs) : Clear reason helper t := by
  cases t with
  | node => cases hn
  | list xs => exact absurd rfl (hl xs)
  | _ => exact ⟨trivial, rfl⟩

lemma clear_list : Clear reason helper (.list xs) ↔ ∀ x ∈ xs, Clear reason helper x := by
  constructor
  · rintro ⟨hevery, hfree⟩ x hx
    refine ⟨everyItem_iff.1 hevery x hx, Bool.eq_false_iff.2 fun hp => ?_⟩
    rw [holdsPrivate_list.2 ⟨x, hx, hp⟩] at hfree
    cases hfree
  · intro h
    refine ⟨everyItem_iff.2 fun x hx => (h x hx).every, Bool.eq_false_iff.2 fun hp => ?_⟩
    obtain ⟨x, hx, hp⟩ := holdsPrivate_list.1 hp
    rw [(h x hx).free] at hp
    cases hp

lemma clear_node {i : Nat} {kind : String} {fields : List (String × Tree)}
    (hk : kind ≠ "PrivateIdentifier") (h : ∀ f ∈ fields, Clear reason helper f.2) :
    Clear reason helper (.node i (.str kind) fields) := by
  refine ⟨⟨.inl fun f hf hp => ?_, everyField_iff.2 fun f hf => (h f hf).every⟩, ?_⟩
  · rw [(h f hf).free] at hp
    cases hp
  · rw [holdsPrivate, Node.is_of_kind rfl, beq_eq_false_iff_ne]
    exact hk

lemma grows_clear (k : Nat) : Grows k (Clear reason helper) (Clear reason helper) where
  flat _ := clear_flat
  list _ := clear_list.2
  identifier hn _ := clear_node (by decide) (by simpa using hn)
  made n _ _ hm _ h := by
    obtain ⟨id, kind, fields⟩ := n
    have hall : ∀ K ∈ madeKinds, K.name ≠ "PrivateIdentifier" := by decide
    obtain ⟨K, hK, rfl⟩ : ∃ K ∈ madeKinds, kind = .str K.name := hm.kind
    exact clear_node (hall K hK) h

lemma clear_call {callee : Tree} {arguments : List Tree} (hc : Clear reason helper callee)
    (ha : ∀ x ∈ arguments, Clear reason helper x) (i : Nat) :
    Clear reason helper (Build.call callee arguments i).1 := by
  refine clear_node (by decide) ?_
  simp only [forall_mem_cons]
  exact ⟨hc, clear_list.2 ha, (grows_clear i).bool _, by simp⟩

lemma clear_await (h : Clear reason helper t) (i : Nat) : Clear reason helper (Build.await t i).1 :=
  clear_node (by decide) (by simpa using h)

lemma builds_clear (k : Nat) : Builds k (Clear reason helper) (Clear reason helper) where
  grows := grows_clear k
  text := (grows_clear k).str
  call hc ha _ := clear_call hc ha _
  await ht _ := clear_await ht _
  settled i body isAsync _ hb _ := by
    have hcall (b : Bool) : Clear reason helper (atOnce i body b) := by
      refine clear_call (clear_node (by decide) ?_) (by simp) (i + 2)
      simp only [forall_mem_cons]
      exact ⟨(grows_clear k).null, clear_list.2 (by simp), hb, by simp [(grows_clear k).bool]⟩
    unfold settled
    split
    · exact clear_await (hcall true) _
    · exact hcall false

lemma Abides.renumber (h : Abides reason helper n) (i : Nat) :
    Abides reason helper { n with id := i } := h

lemma Clear.renumber (h : Clear reason helper n.toTree) (i : Nat) :
    Clear reason helper { n with id := i }.toTree :=
  ⟨⟨h.every.1.renumber i, h.every.2⟩, h.free⟩

end Building

section Reading

def privateFields : List String := ["property", "key", "left", "arguments"]

lemma Abides.field (h : Abides reason helper n) {f : String × Tree} (hf : f ∈ n.fields)
    (hkey : f.1 ∉ privateFields) : f.2.holdsPrivate = false := by
  refine Bool.eq_false_iff.2 fun hp => ?_
  rcases h with hplaced | ⟨-, i, name, x, right, -, -, -, hn⟩
  · have hadmits := (hplaced f hf hp).2
    simp only [Node.admitsPrivate, Bool.or_eq_true, Bool.and_eq_true, beq_iff_eq] at hadmits
    refine hkey ?_
    rcases hadmits with (⟨⟨-, h⟩, -⟩ | ⟨-, h⟩) | ⟨⟨-, h⟩, -⟩ <;> rw [h] <;> decide
  · obtain ⟨-, -, hfields⟩ := Node.mk.inj
      (Node.toTree_injective (n := { n with id := i + 2 }) (m := ⟨i + 2, _, _⟩) hn)
    simp only [hfields, mem_cons, not_mem_nil, or_false] at hf
    rcases hf with rfl | rfl | rfl
    · cases hp
    · exact hkey (by simp [privateFields])
    · cases hp

lemma clear_get? (h : n.toTree.Every (Abides reason helper)) {key : String}
    (hkey : key ∉ "type" :: privateFields) (ht : n.get? key = some t) : Clear reason helper t := by
  obtain ⟨htype, hkey⟩ := not_or.1 (mem_cons.not.1 hkey)
  refine ⟨h.get? htype ht, ?_⟩
  rw [Node.get?, if_neg htype] at ht
  exact h.1.field (mem_of_get? ht) hkey

lemma clear_get (h : n.toTree.Every (Abides reason helper)) {key : String}
    (hkey : key ∉ "type" :: privateFields) : Clear reason helper (n.get key) :=
  (grows_clear 0).get fun _ => clear_get? h hkey

lemma clear_attr {u : Tree} (h : x.Every (Abides reason helper)) {key : String}
    (hkey : key ∉ "type" :: privateFields) (hu : x.attr key = .ok u) : Clear reason helper u := by
  obtain ⟨c, rfl, hget⟩ := attr_toTree_eq_ok hu
  exact clear_get? h hkey hget

lemma every_elements (h : t.Every P) (hx : t.elements = .ok xs) : ∀ x ∈ xs, x.Every P := by
  intro x hmem
  unfold elements at hx
  split at hx
  · obtain rfl := Except.ok.inj hx
    exact everyItem_iff.1 h x hmem
  · obtain rfl := Except.ok.inj hx
    obtain ⟨c, -, rfl⟩ := List.mem_map.1 hmem
    trivial
  · obtain rfl := Except.ok.inj hx
    obtain ⟨e, -, rfl⟩ := List.mem_map.1 hmem
    trivial
  · cases hx

lemma Binds.every {target : Target} {names : List Tree} (h : Binds target names)
    (ht : ∀ t ∈ target.trees, t.Every P) : ∀ x ∈ names, x.Every P := by
  have hfield {n : Node} {key : String} {t : Tree} (hn : n.toTree.Every P) (hne : key ≠ "type")
      (hget : n.get? key = some t) : t.Every P := hn.get? hne hget
  induction h with
  | identifier => exact ht
  | default _ hget _ ih | rest _ hget _ ih | property _ hget _ ih | remaining _ hget _ ih =>
    refine ih (forall_mem_singleton.2 (hfield (ht _ (by simp [Target.trees])) ?_ hget))
    decide
  | object _ hget he _ ih | array _ hget he _ ih =>
    refine ih (every_elements (hfield (ht _ (by simp [Target.trees])) ?_ hget) he)
    decide
  | nil => simp
  | hole _ ih => exact ih fun t hmem => ht t (mem_cons_of_mem _ hmem)
  | cons _ _ ih ihs =>
    intro x hx
    rcases mem_append.1 hx with hx | hx
    · exact ih (forall_mem_singleton.2 (ht _ (by simp [Target.trees]))) x hx
    · exact ihs (fun t hmem => ht t (mem_cons_of_mem _ hmem)) x hx

lemma Declares.every {names : List Tree} (h : Declares n names) (hn : n.toTree.Every P) :
    ∀ x ∈ names, x.Every P := by
  cases h with
  | patterns _ hdecls he hnames =>
    intro x hx
    obtain ⟨bound, hbound, hx⟩ := mem_flatten.1 hx
    obtain ⟨d, hd, id, hid, hbinds⟩ := exists_of_forall₂ hnames hbound
    have hd := every_elements (hn.get? (by decide) hdecls) he d hd
    obtain ⟨c, rfl, hget⟩ := attr_toTree_eq_ok hid
    exact hbinds.every (forall_mem_singleton.2 (hd.get? (by decide) hget)) x hx
  | named _ _ hid => exact forall_mem_singleton.2 (hn.get? (by decide) hid)

variable {m : Node} {k j : Nat} {s s' : State}

lemma Mentions.clear (h : Mentions m name) (hm : m.toTree.Every (Abides reason helper)) :
    Clear reason helper name := by
  cases h with
  | all _ hs honly hbound hname =>
    obtain ⟨c, rfl, -, xs, rfl, hmem⟩ := namespaceSpecifier?_eq_some honly
    have hc := clear_list.1 (clear_get? hm (by decide) hs) _ hmem
    exact clear_attr (clear_attr hc.every (by decide) hbound).every (by decide) hname
  | declared _ hnames hx hname =>
    obtain ⟨c, hc, hdeclares⟩ := declares_of_declaredNames hnames
    have hd : c.toTree.Every (Abides reason helper) := hc ▸ (clear_get hm (by decide)).every
    exact clear_attr (hdeclares.every hd _ hx) (by decide) hname
  | default _ hd hid hkind _ hname =>
    have hd := (clear_get? hm (by decide) hd).every
    obtain ⟨c, rfl, -⟩ := attr_toTree_eq_ok hkind
    obtain rfl : c.get "id" = _ := Except.ok.inj hid
    exact clear_attr (clear_get hd (by decide)).every (by decide) hname

lemma Specifiers.clear (h : Specifiers m xs) (hm : m.toTree.Every (Abides reason helper)) {u : Tree}
    (hx : x ∈ xs) {key : String} (hkey : key ∈ donated) (hu : x.attr key = .ok u) :
    Clear reason helper u := by
  have hall : ∀ key ∈ donated, key ∉ "type" :: privateFields := by decide
  exact clear_attr (every_elements (clear_get hm (by decide)).every h x hx) (hall key hkey) hu

lemma gives_clear (hm : m.toTree.Every (Abides reason helper)) :
    Gives (Clear reason helper) (Clear reason helper) m where
  field K _ key hkey := by
    have hall (K : Kind) : K.name ∈ moduleKinds → ∀ key ∈ K.children,
        key ∉ "type" :: privateFields := by cases K <;> decide
    exact clear_get hm (hall K hkey.1 key hkey.2)
  specifier _ hs _ hx _ htaken _ hkey _ hu := hs.clear hm hx (htaken.donated hkey) hu
  name _ h := h.clear hm

end Reading

section Rules

variable {m : Node} {k j : Nat} {s s' : State}

lemma NameIn.clear {key : String} (h : NameIn m key name) (hm : Clear reason helper (m.get key)) :
    Clear reason helper name := by
  obtain ⟨c, hget, -, hname⟩ := h
  exact clear_get? (parts_get? hm hget).every (by decide) hname

def ClearExports (reason : Prop) (helper : Option String) (exports : List Export) : Prop :=
  ∀ e ∈ exports, Clear reason helper e.declaration ∧ Clear reason helper e.exported

lemma clear_returned {exports : List Export} (h : returned exports k = (.ok t, j))
    (he : ClearExports reason helper exports) : Clear reason helper t :=
  returned_parts h (grows_clear k) fun e hmem =>
    ⟨(he e hmem).1, (he e hmem).2, fun _ _ hn => (hn ▸ (he e hmem).2).renumber⟩

lemma Closes.clear {m' : Node} (h : Closes m k s m' j)
    (hm : ∀ f ∈ m.fields, Clear reason helper f.2) (he : ClearExports reason helper s.exports) :
    Clear reason helper m'.toTree := by
  have hblock : ∀ f ∈ (asBlock m).fields, Clear reason helper f.2 :=
    fun f hf => hm f (Entries.mem_of_mem_erase hf)
  cases h with
  | plain => exact clear_node (show "BlockStatement" ≠ _ by decide) hblock
  | @exports body t _ _ hbody hret =>
    refine clear_node (show "BlockStatement" ≠ _ by decide) fun f hf => ?_
    rcases mem_of_mem_set hf with rfl | hf
    · have hlist : Clear reason helper (.list body) :=
        hm ("body", .list body) (mem_of_get? hbody)
      refine clear_list.2 fun x hx => ?_
      rcases mem_append.1 hx with hx | hx
      · exact clear_list.1 hlist x hx
      · rw [mem_singleton.1 hx]
        exact clear_returned hret he
    · exact hblock f hf

end Rules

section Sweep

variable {m : Node} {p q : Progress State}

def Resembles (old new : Tree) : Prop :=
  (new.holdsPrivate = true → old.holdsPrivate = true) ∧
    (old.is "PrivateIdentifier" = true → new.is "PrivateIdentifier" = true)

def Inherits (n m : Node) : Prop := ∀ f ∈ m.fields, ∃ e ∈ n.fields, e.1 = f.1 ∧ Resembles e.2 f.2

lemma Inherits.refl (n : Node) : Inherits n n := fun f hf => ⟨f, hf, rfl, id, id⟩

lemma Inherits.trans {k : Node} (h : Inherits n m) (h' : Inherits m k) : Inherits n k := by
  intro f hf
  obtain ⟨e, he, hname, hp, hself⟩ := h' f hf
  obtain ⟨d, hd, hname', hp', hself'⟩ := h e he
  exact ⟨d, hd, hname'.trans hname, hp' ∘ hp, hself ∘ hself'⟩

lemma mem_fields_fill {t : Visit.Slot} (ht : Held n t) (hne : t.key ≠ "type") {f : String × Tree}
    (hf : f ∈ (fill n t.key t.index c).fields) :
    f ∈ n.fields ∨ (t.key, t.child.toTree) ∈ n.fields ∧ f = (t.key, c.toTree) ∨
      ∃ xs i, (t.key, .list xs) ∈ n.fields ∧ t.child.toTree ∈ xs ∧
        f = (t.key, .list (xs.set i c.toTree)) := by
  have hmem {u : Tree} (hu : n.get t.key = u) (hnull : u ≠ .null) : (t.key, u) ∈ n.fields := by
    have hget := Node.get?_of_get hu hnull
    rw [Node.get?, if_neg hne] at hget
    exact mem_of_get? hget
  have hset {u : Tree} (hf : f ∈ (n.set t.key u).fields) : f = (t.key, u) ∨ f ∈ n.fields := by
    rw [Node.set, if_neg hne] at hf
    exact mem_of_mem_set hf
  rcases held_iff.1 ht with ⟨hn, hi⟩ | ⟨xs, i, hxs, hx, hi⟩
  · rw [hi, fill_none] at hf
    rcases hset hf with rfl | hf
    · exact .inr (.inl ⟨hmem hn (by simp [Node.toTree]), rfl⟩)
    · exact .inl hf
  · rw [hi, fill_some c hxs (List.getElem?_eq_some_iff.1 hx).1] at hf
    rcases hset hf with rfl | hf
    · exact .inr (.inr ⟨xs, i, hmem hxs (by simp), mem_of_getElem? hx, rfl⟩)
    · exact .inl hf

lemma inherits_fill {t : Visit.Slot} (ht : Held n t) (hne : t.key ≠ "type")
    (hc : c.is "PrivateIdentifier" = t.child.is "PrivateIdentifier") :
    Inherits n (fill n t.key t.index c) := by
  intro f hf
  rcases mem_fields_fill ht hne hf with hf | ⟨hmem, rfl⟩ | ⟨xs, i, hmem, hx, rfl⟩
  · exact ⟨f, hf, rfl, id, id⟩
  · refine ⟨_, hmem, rfl, fun hp => ?_, fun hp => ?_⟩
    · rwa [holdsPrivate_toTree, ← hc]
    · rwa [is_toTree, hc]
  · refine ⟨_, hmem, rfl, fun hp => ?_, fun hp => by cases hp⟩
    obtain ⟨y, hy, hp⟩ := holdsPrivate_list.1 hp
    refine holdsPrivate_list.2 ?_
    rcases mem_or_eq_of_mem_set hy with hy | rfl
    · exact ⟨y, hy, hp⟩
    · exact ⟨_, hx, by rwa [holdsPrivate_toTree, ← hc]⟩

lemma every_fill {t : Visit.Slot} (ht : Held n t) (hne : t.key ≠ "type")
    (hn : EveryField P n.fields) (hc : c.toTree.Every P) :
    EveryField P (fill n t.key t.index c).fields := by
  rw [everyField_iff] at hn ⊢
  intro f hf
  rcases mem_fields_fill ht hne hf with hf | ⟨-, rfl⟩ | ⟨xs, i, hmem, -, rfl⟩
  · exact hn f hf
  · exact hc
  · refine everyItem_iff.2 fun y hy => ?_
    rcases mem_or_eq_of_mem_set hy with hy | rfl
    · exact everyItem_iff.1 (hn _ hmem) y hy
    · exact hc

lemma Turned.is_private (h : Turned n p m q) :
    m.is "PrivateIdentifier" = n.is "PrivateIdentifier" := by
  have hboth {old kind : String} (hn : n.is old = true) (hold : old ≠ "PrivateIdentifier")
      (hk : m.kind = .str kind) (hne : kind ≠ "PrivateIdentifier") :
      m.is "PrivateIdentifier" = n.is "PrivateIdentifier" := by
    rw [Node.is_of_kind hk, Node.is_of_kind (Node.is_iff.1 hn), beq_eq_false_iff_ne.2 hne,
      beq_eq_false_iff_ne.2 hold]
  cases h with
  | still => rfl
  | operator ho hk hrew =>
    obtain ⟨kind, hmem, hkind⟩ := hrew.kind
    have hold : ∀ e ∈ operands, e.1 ≠ "PrivateIdentifier" := by decide
    have hnew : ∀ kind ∈ operatorResults, kind ≠ "PrivateIdentifier" := by decide
    exact hboth hk (hold _ ho) hkind (hnew kind hmem)
  | declaration hd =>
    obtain ⟨old, hmem, hk⟩ := hd.is_module
    obtain ⟨kind, hmem', hkind⟩ := hd.kind_result
    have hold : ∀ kind ∈ moduleKinds, kind ≠ "PrivateIdentifier" := by decide
    have hnew : ∀ kind ∈ moduleResults, kind ≠ "PrivateIdentifier" := by decide
    exact hboth hk (hold old hmem) hkind (hnew kind hmem')

lemma Stepped.is_private {place : Place} (h : Stepped place n p m q) :
    m.is "PrivateIdentifier" = n.is "PrivateIdentifier" := by
  cases h with
  | turned ht =>
    rw [← ht.is_private]
    cases place.parent <;> rfl
  | program _ hk hcloses =>
    rw [Node.is_of_kind (Node.is_iff.1 hk)]
    cases hcloses <;> rfl

lemma Lowers.is_private (h : Lowers n p m q) :
    m.is "PrivateIdentifier" = n.is "PrivateIdentifier" := by
  obtain ⟨m', q', hr, hs, -⟩ := h.step
  rw [hs.is_private, hr.is]

lemma inherits_of_renewed (h : Renewed Lowers n p m q) : Inherits n m :=
  h.steps (J := fun x _ => Inherits n x) (.refl _) fun _ _ _ _ _ hs ht hc hx =>
    hx.trans (inherits_fill hs ht hc.is_private)

lemma get_of_renewed (h : Renewed Lowers n p m q) (K : Kind) (hk : n.is K.name = true)
    {key : String} (hkey : key ∉ K.children) : m.get key = n.get key := by
  rw [Node.get, Node.get, h.get? (childKeys_of_kind K (Node.is_iff.1 hk)) hkey]

lemma admitsPrivate_of_renewed (h : Renewed Lowers n p m q) (key : String) :
    m.admitsPrivate key = n.admitsPrivate key := by
  have hmember : n.is "MemberExpression" = true → m.get "computed" = n.get "computed" :=
    fun hk => get_of_renewed h .memberExpression hk (by decide)
  have hbinary : n.is "BinaryExpression" = true → m.get "operator" = n.get "operator" :=
    fun hk => get_of_renewed h .binaryExpression hk (by decide)
  simp only [Node.admitsPrivate, h.is]
  congr 1
  · congr 1
    cases hk : n.is "MemberExpression" with
    | true => rw [hmember hk]
    | false => rfl
  · cases hk : n.is "BinaryExpression" with
    | true => rw [hbinary hk]
    | false => rfl

lemma placed_of_renewed (h : Renewed Lowers n p m q) (hn : n.Placed) : m.Placed := by
  intro f hf hp
  obtain ⟨e, he, hname, hholds, hself⟩ := inherits_of_renewed h f hf
  obtain ⟨hprivate, hadmits⟩ := hn e he (hholds hp)
  exact ⟨hself hprivate, by rwa [admitsPrivate_of_renewed h, ← hname]⟩

lemma checksBrand_of_renewed (h : Renewed Lowers n p m q) : m.checksBrand = n.checksBrand := by
  cases hk : n.is "BinaryExpression" with
  | false => simp [Node.checksBrand, h.is, hk]
  | true =>
    have hleft : (m.get "left").is "PrivateIdentifier" = (n.get "left").is "PrivateIdentifier" := by
      rcases h.get?_cases carries_lowers "left" with heq | ⟨c, d, a, b, hc, hd, hv⟩ |
        ⟨xs, ys, hxs, hys, -⟩
      · rw [Node.get, heq, Node.get]
      · simp only [Node.get, hc, hd, getD_some, is_toTree, hv.is_private]
      · simp only [Node.get, hxs, hys, getD_some, is, node?]
    rw [Node.checksBrand, Node.checksBrand, h.is, hleft,
      get_of_renewed h .binaryExpression hk (by decide)]

end Sweep

section Step

variable {place : Place} {m m' : Node} {p q q' : Progress State} {k j : Nat} {s s' : State}

lemma operands_of_checksBrand {kind : String} (ho : (kind, keys) ∈ operands) (hk : m.is kind = true)
    (hc : m.checksBrand = true) : keys = ["left", "right"] := by
  have hkeys : ∀ e ∈ operands, e.1 = "BinaryExpression" → e.2 = ["left", "right"] := by decide
  apply hkeys _ ho
  by_contra hne
  exact is_unique hk (Node.checksBrand_iff.1 hc).1 hne

lemma Rewritten.of_checksBrand {kind : String} (h : Rewritten m k s keys t j s')
    (ho : (kind, keys) ∈ operands) (hk : m.is kind = true) (hc : m.checksBrand = true) :
    ∃ x right, m.get? "left" = some x ∧
      x.is "PrivateIdentifier" = true ∧ m.get? "right" = some right ∧
      s.options.overloading = true ∧ s' = (s.use .binary).2 ∧
      t = dispatchCall k (s.use .binary).1 x (.str "in") right := by
  obtain ⟨-, hoperator, x, hleft, hprivate⟩ := Node.checksBrand_iff.1 hc
  have hkeys := operands_of_checksBrand ho hk hc
  -- The target of an assignment would be a plain name.
  have htarget {name value : Tree} {i : Nat} (hv : Operand m k keys name value i) : False := by
    cases hv with
    | one => simp at hkeys
    | right hname =>
      obtain ⟨c, hc, his, -⟩ := hname
      obtain rfl : c = x := Node.toTree_injective (some.inj (hc.symm.trans hleft))
      exact is_unique his hprivate (by decide)
  cases h with
  | unary => simp at hkeys
  | binary hl hr _ hop hover =>
    obtain rfl := some.inj (hop.symm.trans hoperator)
    obtain rfl := some.inj (hl.symm.trans hleft)
    exact ⟨_, _, hl, hprivate, hr, hover, rfl, rfl⟩
  | assign hv | assignThenReturn hv => exact (htarget hv).elim
  | returnThenAssign => simp at hkeys

lemma clear_operand {kind key : String} (ho : (kind, keys) ∈ operands) (hk : m.is kind = true)
    (hm : m.toTree.Every (Abides reason helper)) (hplaced : m.Placed)
    (hc : m.checksBrand = true → key ≠ "left") (hkey : key ∈ keys) : Clear reason helper (m.get key) := by
  have hne := ne_type_of_operand ho hkey
  refine (grows_clear 0).get fun t ht => ⟨hm.get? hne ht, Bool.eq_false_iff.2 fun hp => ?_⟩
  have hmem : (key, t) ∈ m.fields := by
    rw [Node.get?, if_neg hne] at ht
    exact mem_of_get? ht
  obtain ⟨hprivate, hadmits⟩ := hplaced _ hmem hp
  have hkinds : ∀ e ∈ operands,
      e.1 ∉ ["MemberExpression", "MethodDefinition", "PropertyDefinition"] := by decide
  have hother := is_other (Node.is_iff.1 hk) (hkinds _ ho)
  simp only [Node.admitsPrivate, hother _ (mem_cons_self ..),
    hother "MethodDefinition" (by simp), hother "PropertyDefinition" (by simp), Bool.false_and,
    Bool.or_self, Bool.false_or, Bool.and_eq_true, beq_iff_eq] at hadmits
  obtain ⟨⟨hbinary, rfl⟩, hoperator⟩ := hadmits
  refine hc ?_ rfl
  rw [Node.checksBrand, hbinary, hoperator, Node.get, ht]
  exact hprivate

lemma every_dispatchCall {name : String} (hx : x.Every (Abides reason helper))
    (hp : x.is "PrivateIdentifier" = true) (hright : Clear reason helper right) (hreason : reason)
    (hname : helper = some name) :
    (dispatchCall k name x (.str "in") right).Every (Abides reason helper) := by
  have hcallee : Clear reason helper (Build.identifier (.str name) k).1 :=
    (grows_clear k).identifier ((grows_clear k).str name) (Nat.le_refl k)
  have hliteral : Clear reason helper (Build.literal (.str "in") (k + 1)).1 :=
    (grows_clear k).literal ((grows_clear k).str "in") (Nat.le_succ k)
  refine ⟨.inr ⟨hreason, k, name, x, right, hname, hp, hright.free, rfl⟩, ?_⟩
  rw [everyField_iff]
  simp only [forall_mem_cons]
  refine ⟨hcallee.every, everyItem_iff.2 ?_, trivial, by simp⟩
  simp only [forall_mem_cons]
  exact ⟨hx, hliteral.every, hright.every, by simp⟩

lemma every_landed {parent : Option Node} {new : Node}
    (h : new.toTree.Every (Abides reason helper)) :
    (landed parent m new).toTree.Every (Abides reason helper) := by
  cases parent with
  | none => exact ⟨h.1.renumber m.id, h.2⟩
  | some _ => exact h

lemma Stepped.abides (h : Stepped place m q m' q') (hm : m.toTree.Every (Abides reason helper))
    (hplaced : m.Placed)
    (hreason : m.checksBrand = true → q.state.options.overloading = true → reason)
    (hhelper : ∀ name, q'.state.binaryFn = some name → helper = some name)
    (hexports : ClearExports reason helper q.state.exports) :
    m'.toTree.Every (Abides reason helper) ∧ ClearExports reason helper q'.state.exports := by
  cases h with
  | turned ht =>
    refine And.imp_left every_landed ?_
    cases ht with
    | still _ _ hs => exact ⟨hm, by rwa [hs]⟩
    | @operator kind keys new _ _ ho hk hrew =>
      refine ⟨?_, by rwa [hrew.exports]⟩
      by_cases hc : m.checksBrand = true
      · -- The call takes the private name over from the operator, and nothing else is one.
        obtain ⟨x, right, hx, hp, hright, hover, hstate, hnew⟩ := hrew.of_checksBrand ho hk hc
        have hkey : "right" ∈ keys := by simp [operands_of_checksBrand ho hk hc]
        have hright := parts_get? (clear_operand ho hk hm hplaced (fun _ => by decide) hkey) hright
        rw [hnew]
        refine every_dispatchCall (hm.get? (by decide) hx) hp hright (hreason hc hover) (hhelper _ ?_)
        rw [hstate]
        exact State.binaryFn_useBinary _
      · have hclear (key : String) (hkey : key ∈ keys) : Clear reason helper (m.get key) :=
          clear_operand ho hk hm hplaced (fun h => absurd h hc) hkey
        exact (hrew.parts (builds_clear _) hclear fun key hkey _ hn => hn.clear (hclear key hkey)).every
    | declaration hd =>
      refine ⟨(hd.parts (builds_clear _) (gives_clear hm)).every, fun e he => ?_⟩
      rcases hd.adds.mem he with he | he
      · exact hexports e he
      · exact he.parts (builds_clear _) (gives_clear hm)
  | program _ hk hcloses =>
    -- No field of a program admits a private name.
    refine ⟨(hcloses.clear (fun f hf => ?_) hexports).every, hexports⟩
    refine ⟨everyField_iff.1 hm.2 f hf, Bool.eq_false_iff.2 fun hp => ?_⟩
    have hadmits := (hplaced f hf hp).2
    have hother := is_other (Node.is_iff.1 hk) (show "Program" ∉ ["MemberExpression",
      "MethodDefinition", "PropertyDefinition", "BinaryExpression"] by decide)
    simp [Node.admitsPrivate, hother] at hadmits

end Step

section Run

variable {root m : Node} {p q final : Progress State}

/-- Somewhere in the program there is a test for a private name, and operators are replaced. -/
def ReplacesCheck (root : Node) (options : Options) : Prop :=
  options.overloading = true ∧ ∃ n, Below root n ∧ n.checksBrand = true

def Respects (reason : Prop) (final : Progress State) (_ : Node) (p : Progress State) (m : Node)
    (q : Progress State) : Prop :=
  Extends q final → ClearExports reason final.state.binaryFn p.state.exports →
    m.toTree.Every (Abides reason final.state.binaryFn) ∧
      ClearExports reason final.state.binaryFn q.state.exports

lemma Swept.respects {ss : List Visit.Slot}
    (h : Swept (fun c a d b => Lowers c a d b ∧ Respects reason final c a d b) ss n p m q)
    (hfinal : Extends q final)
    (hn : EveryField (Abides reason final.state.binaryFn) n.fields)
    (hexports : ClearExports reason final.state.binaryFn p.state.exports) :
    EveryField (Abides reason final.state.binaryFn) m.fields ∧
      ClearExports reason final.state.binaryFn q.state.exports := by
  induction h with
  | nil => exact ⟨hn, hexports⟩
  | @cons t rest n c m p q r hl hc hrest ih =>
    have hqr : Extends q r := hrest.progress ⟨.refl, .trans, fun h => h.1.extends⟩
    obtain ⟨hevery, hexports⟩ := hc.2 (hqr.trans hfinal) hexports
    exact ih hfinal (every_fill hl.head (hl.plain t (by simp)) hn hevery) hexports

lemma respects_of_stepped {place : Place} {m' : Node} {q' : Progress State}
    (hroot : root.toTree.Every Node.Placed) (hb : Below root n)
    (hreason : ReplacesCheck root final.state.options → reason)
    (hr : Renewed (fun c a d b => Lowers c a d b ∧ Respects reason final c a d b) n p m q)
    (hs : Stepped place m q m' q') (hext : Extends q q') : Respects reason final n p m' q' := by
  intro hfinal hexports
  have hn := hroot.below hb
  have hl : Renewed Lowers n p m q := hr.mono fun _ _ _ _ _ h => h.1
  have hq := hext.trans hfinal
  obtain ⟨keys, -, -, -, hswept⟩ := hr.keys
  obtain ⟨hfields, hexports⟩ := Swept.respects hswept hq
    (EveryField.mono (fun _ => .inl) _ hn.2) hexports
  have hplaced := placed_of_renewed hl hn.1
  refine hs.abides ⟨.inl hplaced, hfields⟩ hplaced (fun hc ho => ?_) hfinal.binaryFn hexports
  rw [checksBrand_of_renewed hl] at hc
  exact hreason ⟨hq.options ▸ ho, n, hb, hc⟩

lemma Lowers.respects (h : Lowers n p m q) (hroot : root.toTree.Every Node.Placed)
    (hb : Below root n) (hreason : ReplacesCheck root final.state.options → reason) :
    Respects reason final n p m q :=
  h.recursion fun _ _ _ _ _ _ hk hr hs hext =>
    respects_of_stepped hroot (hb.trans hk) hreason hr hs.stepped hext

end Run

section Converse

variable {place : Place} {root m m' y : Node} {p q q' : Progress State}

lemma Still.checksBrand (h : Still q.state.options m) (ho : q.state.options.overloading = true)
    (hright : m.get? "right" = some right) : m.checksBrand = false := by
  refine Bool.eq_false_iff.2 fun hc => ?_
  obtain ⟨hbinary, hoperator, x, hleft, -⟩ := Node.checksBrand_iff.1 hc
  obtain ⟨s, hs, -⟩ := h m ⟨some m, "", none⟩ q (fun _ => rfl) rfl (by simp)
  rw [finish_of_rule (Node.is_iff.1 hbinary) rfl, binaryRule_eq
    (c := ⟨siteAt ⟨some m, "", none⟩ m, q.next, q.notes, q.state⟩) ho hoperator (by decide) hleft
    hright] at hs
  -- Its place would hold a call.
  obtain ⟨new, hnew, hnode, -⟩ := replaceBy_eq_ok (Prod.ext (congrArg (·.outcome) hs) rfl)
  obtain rfl : m = new := (congrArg (·.node) hs).symm.trans hnode
  have hkind : m.kind = .str "CallExpression" :=
    congrArg Node.kind (Node.toTree_injective (m := ⟨_, .str "CallExpression", _⟩) hnew.symm)
  exact is_unique hbinary (Node.is_iff.2 hkind) (by decide)

def Misplaces (n : Node) : Prop := n.is "CallExpression" = true ∧ ¬n.Placed

lemma misplaces_dispatchCall {i : Nat} {name : String}
    (h : n.toTree = dispatchCall i name x token right) (hx : x.is "PrivateIdentifier" = true) :
    Misplaces n := by
  obtain rfl : n = ⟨i + 2, .str "CallExpression", _⟩ := Node.toTree_injective h
  refine ⟨rfl, fun hplaced => ?_⟩
  have hlist : (list [x, (Build.literal token (i + 1)).1, right]).holdsPrivate = true := by
    refine holdsPrivate_list.2 ⟨x, mem_cons_self, ?_⟩
    cases x with
    | node => exact hx
    | _ => cases hx
  cases (hplaced ("arguments", _) (by simp) hlist).1

lemma Turned.misplaces (h : Turned m q m' q') (ho : q.state.options.overloading = true)
    (hc : m.checksBrand = true)
    (hright : m.get? "right" = some right) : Misplaces m' := by
  have hbinary := (Node.checksBrand_iff.1 hc).1
  cases h with
  | still hs =>
    rw [hs.checksBrand ho hright] at hc
    cases hc
  | operator hop hk hrew =>
    obtain ⟨x, _, -, hx, -, -, -, hnew⟩ := hrew.of_checksBrand hop hk hc
    exact misplaces_dispatchCall hnew hx
  | declaration hd =>
    obtain ⟨kind, hmem, hk⟩ := hd.is_module
    have hall : ∀ kind ∈ moduleKinds, kind ≠ "BinaryExpression" := by decide
    exact (is_unique hk hbinary (hall kind hmem)).elim

lemma Lowers.misplaces (h : Lowers n p m q) (hroot : Below root n)
    (hg : ∀ c, Below root c → Grammatical c) (ho : p.state.options.overloading = true)
    (hy : Below n y) (hc : y.checksBrand = true) : ∃ z, Misplaces z ∧ Stands m q.state z := by
  refine h.recursion (P := fun c a d b => a.state.options.overloading = true → ∀ y, Below c y →
      y.checksBrand = true → ∃ z, Misplaces z ∧ Stands d b.state z)
    (fun c m p q m' q' hb hr hs hext ho y hy hc => ?_) ho y hy hc
  have hl : Renewed Lowers c p m q := hr.mono fun _ _ _ _ _ h => h.1
  rcases below_iff.1 hy with rfl | ⟨t, ht, hy⟩
  · have hbinary := (Node.checksBrand_iff.1 hc).1
    have hnode : (y.get "right").isNode = true :=
      (hg y (hroot.trans hb)).operand ("BinaryExpression", ["left", "right"]) (by decide) hbinary
        "right" (by decide)
    obtain ⟨r, hr⟩ := isSome_iff_exists.1 hnode
    obtain ⟨d, a, b, hd, -⟩ := hl.field carries_lowers
      (childKeys_of_kind .binaryExpression (Node.is_iff.1 hbinary)) (by decide)
      (Node.get?_of_get (toTree_of_node? hr).symm (by simp [Node.toTree]))
    refine ⟨m', hs.misplaces ?_ ((checksBrand_of_renewed hl).trans hc) hd, .inl .refl⟩
    rw [(hl.progress carries_lowers).options, ho]
  · obtain ⟨d, a, b, hd, ⟨-, hP⟩, ha, hbq⟩ :=
      hr.mem_of_slot (R := Extends) ⟨.refl, .trans, fun h => h.1.extends⟩ ht
    obtain ⟨z, hz, hbelow | hshelved⟩ := hP (by rw [ha.options, ho]) y hy hc
    · exact ⟨z, hz, hs.stands hl (fun c hc => hg c ((hroot.trans hb).trans hc)) hd hbelow
        ⟨_, by decide, hz.1⟩⟩
    · exact ⟨z, hz, .inr (hshelved.mono (hbq.trans hext))⟩

lemma exists_misplaces (hl : Lawful root) (hk : root.is "Program" = true)
    (hg : ∀ c, Below root c → Grammatical c)
    (hv : visit builtinRules root ⟨none, "", none⟩ p = ⟨.ok (), m, q⟩)
    (ho : p.state.options.overloading = true) (hy : Below root y) (hc : y.checksBrand = true) :
    ∃ z, Misplaces z ∧ Below m z := by
  obtain ⟨m', r, k, hr, hm, hcloses, rfl⟩ := lowered_program hl hk hv
  rcases below_iff.1 hy with rfl | ⟨t, ht, hy⟩
  · exact (is_unique hk (Node.checksBrand_iff.1 hc).1 (by decide)).elim
  · obtain ⟨d, a, b, hd, hlowers, ha, hbr⟩ := hr.mem_of_slot carries_lowers ht
    obtain ⟨z, hz, hbelow | hshelved⟩ :=
      hlowers.misplaces (.child .refl ht) hg (by rw [ha.options, ho]) hy hc
    · exact ⟨z, hz, .head (hcloses.slot hm hd) hbelow⟩
    · exact ⟨z, hz, hcloses.below (hshelved.mono hbr)⟩

end Converse

/-- Where private names stand in places that the grammar has for them, they do so after a lowering,
but for tests that became calls of the binary helper. There are none of these unless operators are
replaced in a program with such a test, and then, in a grammatical program, there is one. -/
theorem private_names_placed_unless_checked (d : Json) (k : Nat) {root : Node}
    (hroot : (Tree.ofData d k).1 = root.toTree) (hprivate : root.is "PrivateIdentifier" = false)
    (hplaced : root.toTree.Every Node.Placed) (options : Options)
    (hcustom : options.customRules = []) (next : Nat) (s : State)
    (h : (run options root.toTree next).outcome = .ok s) :
    (run options root.toTree next).tree.holdsPrivate = false ∧
    ((run options root.toTree next).tree.Every fun n => n.Placed ∨ ChecksByHelper s.binaryFn n) ∧
    (¬ReplacesCheck root options → (run options root.toTree next).tree.Every Node.Placed) ∧
    (root.is "Program" = true → (∀ n, Below root n → Grammatical n) → ReplacesCheck root options →
      ¬(run options root.toTree next).tree.Every Node.Placed) := by
  have hl := d.lawful hroot
  obtain ⟨start, m, q, hs, hv, rfl, hrun⟩ := run_eq_ok hcustom hl h
  obtain ⟨ho, hexports, -⟩ := ofTree_eq_ok hs
  obtain ⟨m', r, hr, hstepped, hext⟩ := lowered_step hl hv
  have hoptions : q.state.options = options := by
    rw [hext.options, (hr.progress carries_lowers).options, ho]
  have hreason : ReplacesCheck root q.state.options → ReplacesCheck root options := by
    rw [hoptions]
    exact id
  obtain ⟨hevery, -⟩ := respects_of_stepped hplaced .refl hreason (hr.mono fun t ht a c b hc =>
    ⟨hc, hc.respects hplaced (.child .refl ht) hreason⟩) hstepped hext (.refl q)
    (by simp [ClearExports, hexports])
  rw [hrun]
  refine ⟨?_, ?_, ?_, ?_⟩
  · rw [holdsPrivate_toTree, hstepped.is_private, hr.is, hprivate]
  · exact Every.mono (fun n hn => hn.imp_right And.right) _ hevery
  · intro hnone
    exact Every.mono (fun n hn => hn.resolve_right fun h => hnone h.1) _ hevery
  · rintro hk hg ⟨hover, y, hy, hc⟩ hall
    obtain ⟨z, hz, hb⟩ := exists_misplaces hl hk hg hv (by rw [ho, hover]) hy hc
    exact hz.2 (hall.below hb).1

section Programs

def nameOf (kind s : String) : Data := .object [("type", .str kind), ("name", .str s)]

def classTesting (test : Data) : Data :=
  let property (key value : Data) (isStatic : Bool) : Data :=
    .object [("type", .str "PropertyDefinition"), ("key", key), ("value", value),
      ("computed", .bool false), ("static", .bool isStatic)]
  .object [("type", .str "Program"), ("body", .list [.object [("type", .str "ClassDeclaration"),
    ("id", nameOf "Identifier" "C"), ("superClass", .null),
    ("body", .object [("type", .str "ClassBody"), ("body", .list [
      property (nameOf "PrivateIdentifier" "x") .null false,
      property (nameOf "Identifier" "y") test true])])]])]

def brandCheck : Data :=
  .object [("type", .str "BinaryExpression"), ("operator", .str "in"),
    ("left", nameOf "PrivateIdentifier" "x"), ("right", nameOf "Identifier" "o")]

def guardedAccess : Data :=
  .object [("type", .str "LogicalExpression"), ("operator", .str "&&"), ("left", brandCheck),
    ("right", .object [("type", .str "MemberExpression"), ("object", nameOf "Identifier" "o"),
      ("property", nameOf "PrivateIdentifier" "x"), ("computed", .bool false)])]

def testRoot (test : Data) : Node :=
  ((ofData (classTesting test) 0).1.node?).getD ⟨0, .null, []⟩

lemma guardedAccess_replacesCheck : ReplacesCheck (testRoot guardedAccess) Options.default := by
  have htidy : (testRoot guardedAccess).toTree.Every Tidy :=
    tidy_ofData (classTesting guardedAccess) 0 (by decide +kernel)
  have hfound : (testRoot guardedAccess).toTree.contains "BinaryExpression" = .ok true := rfl
  have hall : (testRoot guardedAccess).toTree.Every fun n =>
      n.is "BinaryExpression" = true → n.checksBrand = true := by decide +kernel
  obtain ⟨y, hy, hk⟩ := exists_of_contains htidy.lawful hfound
  exact ⟨rfl, y, hy, (hall.below hy).1 hk⟩

theorem private_names_placed_unless_checked_guarded :
    (∃ s, (run Options.default (testRoot guardedAccess).toTree 50).outcome = .ok s ∧
      ((run Options.default (testRoot guardedAccess).toTree 50).tree.Every fun n =>
        n.Placed ∨ ChecksByHelper s.binaryFn n)) ∧
    ¬(run Options.default (testRoot guardedAccess).toTree 50).tree.Every Node.Placed ∧
    (run { Options.default with overloading := false } (testRoot guardedAccess).toTree
      50).tree.Every Node.Placed := by
  have hkeyed : (classTesting guardedAccess).keyed = true := by decide +kernel
  have hroot : (ofData (classTesting guardedAccess) 0).1 = (testRoot guardedAccess).toTree :=
    rfl
  have hprivate : (testRoot guardedAccess).is "PrivateIdentifier" = false := rfl
  have hprogram : (testRoot guardedAccess).is "Program" = true := rfl
  have hplaced : (testRoot guardedAccess).toTree.Every Node.Placed := by decide +kernel
  have hgrammar : (testRoot guardedAccess).toTree.Every Grammatical := by decide +kernel
  have hcheck := guardedAccess_replacesCheck
  obtain ⟨s, hs⟩ := exists_ok_of_isSome (show (run Options.default (testRoot guardedAccess).toTree
    50).outcome.toOption.isSome = true by decide +kernel)
  obtain ⟨t, ht⟩ := exists_ok_of_isSome (show (run { Options.default with overloading := false }
    (testRoot guardedAccess).toTree 50).outcome.toOption.isSome = true by decide +kernel)
  generalize testRoot guardedAccess = root at *
  obtain ⟨-, hevery, -, hsome⟩ := private_names_placed_unless_checked ⟨_, hkeyed⟩ 0 hroot hprivate
    hplaced Options.default rfl 50 s hs
  obtain ⟨-, -, hnone, -⟩ := private_names_placed_unless_checked ⟨_, hkeyed⟩ 0 hroot hprivate hplaced
    { Options.default with overloading := false } rfl 50 t ht
  refine ⟨⟨s, hs, hevery⟩, hsome hprogram (fun n hn => (hgrammar.below hn).1) hcheck, hnone ?_⟩
  rintro ⟨ho, -⟩
  cases ho

theorem brand_check_passes_private_name :
    (Tree.ofData (classTesting brandCheck) 0).1 = (testRoot brandCheck).toTree ∧
    (testRoot brandCheck).is "PrivateIdentifier" = false ∧
    (testRoot brandCheck).toTree.Every Node.Placed ∧
    (run Options.default (testRoot brandCheck).toTree 50).outcome.toOption.isSome = true ∧
    ¬(run Options.default (testRoot brandCheck).toTree 50).tree.Every Node.Placed :=
  ⟨rfl, rfl, by decide +kernel, by decide +kernel, by decide +kernel⟩

end Programs

end Lowering

end Overload
