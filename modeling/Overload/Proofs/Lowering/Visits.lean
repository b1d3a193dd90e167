import Overload.Proofs.Lowering.Steps
import Overload.Proofs.Visit.Chain

/-!
What the visit of a part of a program keeps: names and literals, what patterns bind and declarations
declare, and, outside of export statements, the exports.
-/

namespace Overload.Lowering

open Visit List Target

variable {names : List Tree} {key : String} {t : Tree}

variable {n m : Node} {p q : Progress State}

abbrev Lowers : Node → Progress State → Node → Progress State → Prop := Becomes builtinRules

lemma Lowers.keeps {I : Progress State → Prop} (hI : Closed I) (hn : Notes I)
    (h : Lowers n p m q) (hp : I p) : I q := by
  obtain ⟨hl, parent, key, index, hv⟩ := h
  have := visit_keeps hI hn hl (by rw [hv]) hp
  rwa [hv] at this

lemma lowered_keeps {I : Progress State → Prop} (hI : Closed I) (hn : Notes I)
    (h : Renewed Lowers n p m q) : I p → I q :=
  h.progress ⟨fun _ => id, fun h h' hp => h' (h hp), fun h => h.keeps hI hn⟩

lemma Lowers.extends (h : Lowers n p m q) : Extends p q :=
  Lowers.keeps (Extends.closed p) (Extends.notes p) h (.refl p)

lemma carries_lowers : Carries Lowers Extends := ⟨.refl, .trans, Lowers.extends⟩

theorem Lowers.induction {P : Node → Progress State → Node → Progress State → Prop}
    (h : Lowers n p m q)
    (step : ∀ k m p q m' q', Below n k → Renewed P k p m q → Turned m q m' q' → Extends q q' →
      P k p m' q') : P n p m q := by
  obtain ⟨hl, parent, key, index, hv⟩ := h
  have := visit_induction (P := P) hl (fun k m p q parent key index hb hr ho => step k m p q _ _ hb
    hr ((stepped_of_finish ho).inner (by simp)) (.finish ho)) .refl (by rw [hv])
  rwa [hv] at this

lemma lowered_step {place : Place} (hl : Lawful n)
    (hv : visit builtinRules n place p = ⟨.ok (), m, q⟩) :
    ∃ m' q', Renewed Lowers n p m' q' ∧ Stepped place m' q' m q ∧ Extends q' q := by
  obtain ⟨m', q', hr, hf⟩ := renewed_becomes hl (by rw [hv])
  rw [hv] at hf
  have ho : (finish builtinRules place m' q').outcome = .ok () := by rw [← hf]
  have hs := stepped_of_finish ho
  have he := Extends.finish ho
  rw [← hf] at hs he
  exact ⟨m', q', hr, hs, he⟩

lemma Lowers.step (h : Lowers n p m q) :
    ∃ m' q', Renewed Lowers n p m' q' ∧ Turned m' q' m q ∧ Extends q' q := by
  obtain ⟨hl, parent, key, index, hv⟩ := h
  obtain ⟨m', q', hr, hs, he⟩ := lowered_step hl hv
  exact ⟨m', q', hr, hs.inner (by simp), he⟩

lemma lowered_program (hl : Lawful n) (hk : n.is "Program" = true)
    (hv : visit builtinRules n ⟨none, "", none⟩ p = ⟨.ok (), m, q⟩) :
    ∃ m' r k, Renewed Lowers n p m' r ∧ m'.is "Program" = true ∧ Closes m' r.next r.state m k ∧
      q = ⟨k, r.notes, r.state⟩ := by
  obtain ⟨m', r, hr, hs, -⟩ := lowered_step hl hv
  have hm : m'.is "Program" = true := by rwa [hr.is]
  obtain ⟨k, hc, hq⟩ := hs.closes rfl hm
  exact ⟨m', r, k, hr, hm, hc, hq⟩

theorem Lowers.recursion {P : Node → Progress State → Node → Progress State → Prop}
    (h : Lowers n p m q)
    (step : ∀ k m p q m' q', Below n k →
      Renewed (fun c a d b => Lowers c a d b ∧ P c a d b) k p m q → Turned m q m' q' →
      Extends q q' → P k p m' q') : P n p m q := by
  suffices hall : ∀ size c p m q, c.toTree.size = size → Below n c → Lowers c p m q → P c p m q from
    hall _ n p m q rfl .refl h
  intro size
  induction size using Nat.strongRecOn with
  | ind size ih =>
    intro c p m q hsize hb hc
    obtain ⟨m', q', hr, hs, he⟩ := hc.step
    refine step c m' p q' m q hb (hr.mono fun s hmem a d b hd => ⟨hd, ?_⟩) hs he
    obtain ⟨keys, hk, -⟩ := hr.keys
    refine ih _ ?_ s.child a d b rfl (hb.child hmem) hd
    rw [← hsize]
    exact size_child_lt (slots_of_childKeys hk ▸ hmem)

lemma Lowers.renewed (h : Lowers n p m q) (hn : ∀ kind ∈ dissolved, n.is kind = false) :
    ∃ q', Renewed Lowers n p m q' := by
  obtain ⟨m', q', hr, hs, -⟩ := h.step
  obtain rfl := hs.same fun kind hk => (hr.is kind).trans (hn kind hk)
  exact ⟨q', hr⟩

lemma Lowers.renewed_of_kind (h : Lowers n p m q) (k : Kind) (hk : n.is k.name = true)
    (hd : k.name ∉ dissolved) : ∃ q', Renewed Lowers n p m q' ∧ m.is k.name = true := by
  obtain ⟨q', hr⟩ := h.renewed (is_other (Node.is_iff.1 hk) hd)
  exact ⟨q', hr, by rwa [hr.is]⟩

def nameKinds : List String := ["Identifier", "Literal"]

lemma lowered_leaf (h : Renewed Lowers n p m q) (k : Kind) (hk : n.is k.name = true)
    (hc : k.children = []) : m = n := by
  obtain ⟨keys, hkeys, -, -, hs⟩ := h.keys
  rw [childKeys_of_kind k (Node.is_iff.1 hk), hc] at hkeys
  obtain rfl := Except.ok.inj hkeys
  cases hs
  rfl

lemma Lowers.eq_of_name (h : Lowers n p m q) {kind : String} (hmem : kind ∈ nameKinds)
    (hk : n.is kind = true) : m = n := by
  have hleaf (k : Kind) (hk : n.is k.name = true) (hd : k.name ∉ dissolved)
      (hc : k.children = []) : m = n := by
    obtain ⟨q', hr, -⟩ := h.renewed_of_kind k hk hd
    exact lowered_leaf hr k hk hc
  rcases mem_pair.1 hmem with rfl | rfl
  · exact hleaf .identifier hk (by decide) rfl
  · exact hleaf .literal hk (by decide) rfl

lemma lowered_name (h : Renewed Lowers n p m q) (k : Kind) (hk : n.is k.name = true)
    (hkey : key ∈ k.children) {c : Node} {kind : String} (hmem : kind ∈ nameKinds)
    (hc : c.is kind = true) (hget : n.get? key = some c.toTree) : m.get? key = some c.toTree := by
  obtain ⟨d, a, b, hd, hv, -⟩ :=
    h.field carries_lowers (childKeys_of_kind k (Node.is_iff.1 hk)) hkey hget
  rw [hd, hv.eq_of_name hmem hc]

def exportKinds : List String :=
  ["ExportNamedDeclaration", "ExportDefaultDeclaration", "ExportAllDeclaration"]

lemma Turned.exports (h : Turned m p n q)
    (hm : ∀ kind ∈ exportKinds, m.is kind = false) : q.state.exports = p.state.exports := by
  have hno {kind : String} (hk : m.is kind = true) (hmem : kind ∈ exportKinds) : False := by
    rw [hm kind hmem] at hk
    cases hk
  cases h with
  | still _ _ hs => rw [hs]
  | operator _ _ hr => exact hr.exports
  | declaration hd =>
    generalize Node.toTree _ = t at hd
    cases hd with
    | importAll | importNames => exact exports_use ..
    | exportFrom hk | exportDeclared hk | exportLocals hk | exportDefaultName hk =>
      exact (hno hk (by decide)).elim
    | exportDefaultValue hk | exportAll hk => exact (hno hk (by decide)).elim

def KeepsExports (_ : Node) (p : Progress State) (_ : Node) (q : Progress State) : Prop :=
  q.state.exports = p.state.exports

lemma exports_of_renewed (h : Renewed KeepsExports n p m q) : q.state.exports = p.state.exports :=
  h.progress (R := fun p q : Progress State => q.state.exports = p.state.exports)
    ⟨fun _ => rfl, fun h h' => h'.trans h, fun h => h⟩

lemma Lowers.exports (h : Lowers n p m q)
    (hn : ∀ k, Below n k → ∀ kind ∈ exportKinds, k.is kind = false) :
    q.state.exports = p.state.exports := by
  refine h.induction (P := KeepsExports) fun k m p q m' q' hb hr hs _ => ?_
  refine (hs.exports fun kind hk => ?_).trans (exports_of_renewed hr)
  rw [Node.is, hr.kind]
  exact hn k hb kind hk

lemma lowered_exports (h : Renewed Lowers n p m q)
    (hn : ∀ s ∈ slots n, ∀ k, Below s.child k → ∀ kind ∈ exportKinds, k.is kind = false) :
    q.state.exports = p.state.exports :=
  exports_of_renewed (h.mono fun s hs _ _ _ hc => hc.exports (hn s hs))

section Patterns

def FormedBelow (n : Node) : Prop := ∀ k, Below n k → Formed k

lemma FormedBelow.field (h : FormedBelow n) (k : Kind) (hk : n.is k.name = true)
    (hkey : key ∈ k.children) (ht : n.get? key = some t) : Parts FormedBelow t := by
  have := parts_of_kind (P := FormedBelow) k hk hkey fun s hs c hc => h c (.head hs hc)
  rwa [Node.get, ht] at this

inductive Target.Seen : Target → Target → Prop
  | one {role : Role} {t u : Tree} : Visit.Seen Lowers t u → Seen (.one role t) (.one role u)
  | all {role : Role} {ts us : List Tree} : Forall₂ (Visit.Seen Lowers) ts us →
      Seen (.all role ts) (.all role us)

lemma Target.seen_toTree {role : Role} {target : Target}
    (h : Seen (.one role n.toTree) target) :
    ∃ m p q, Lowers n p m q ∧ target = .one role m.toTree := by
  generalize ht : n.toTree = t at h
  obtain ⟨⟨hc⟩ | ⟨hno⟩⟩ := h
  · obtain rfl := Node.toTree_injective ht
    exact ⟨_, _, _, hc, rfl⟩
  · rw [← ht, Tree.node?_toTree] at hno
    cases hno

lemma Binds.isNode {role : Role} (h : Binds (.one role t) names) : ∃ c : Node, t = c.toTree :=
  isNode_of_boundAs h.bound

lemma forall₂_seen_self {ts : List Tree} (h : ∀ t ∈ ts, t.node? = none) :
    Forall₂ (Visit.Seen Lowers) ts ts :=
  forall₂_same.2 fun t ht => .other (h t ht)

lemma lowered_elements (h : Renewed Lowers n p m q) (k : Kind) (hk : n.is k.name = true)
    (hkey : key ∈ k.children) {ts : List Tree} (ht : n.get? key = some t)
    (hts : t.elements = .ok ts) : ∃ u us, m.get? key = some u ∧
      u.elements = .ok us ∧ Forall₂ (Visit.Seen Lowers) ts us := by
  have hflat (hnode : t.node? = none) (hlist : ∀ xs, t ≠ .list xs) : m.get? key = some t := by
    have hget : n.get key = t := by rw [Node.get, ht, Option.getD_some]
    rw [h.get?_of_flat (by rwa [hget]) (by simpa [hget] using hlist), ht]
  cases t with
  | list xs =>
    obtain rfl := Except.ok.inj hts
    obtain ⟨ys, hys, hseen⟩ :=
      h.items carries_lowers (childKeys_of_kind k (Node.is_iff.1 hk)) hkey ht
    refine ⟨_, ys, hys, rfl, hseen.imp fun x y hxy => ?_⟩
    cases hxy with
    | node hc => exact .node hc.1
    | other hx => exact .other hx
  | str s =>
    obtain rfl := Except.ok.inj hts
    refine ⟨_, _, hflat rfl (by simp), rfl, forall₂_seen_self ?_⟩
    simp [Tree.ofChar, Tree.node?]
  | object es =>
    obtain rfl := Except.ok.inj hts
    refine ⟨_, _, hflat rfl (by simp), rfl, forall₂_seen_self ?_⟩
    rintro _ hx
    obtain ⟨e, -, rfl⟩ := mem_map.1 hx
    rfl
  | _ => cases hts

theorem Binds.lowered {target after : Target} (h : Binds target names)
    (hf : target.Each FormedBelow) (hs : Target.Seen target after) : Binds after names := by
  -- A pattern of a kind that stays, with one pattern in a field.
  have hfield {n : Node} {role : Role} {t : Tree} {after : Target} {names : List Tree} (k : Kind)
      (hk : n.is k.name = true) (hd : k.name ∉ dissolved) {key : String} (hkey : key ∈ k.children)
      (hget : n.get? key = some t) (hf : Each FormedBelow (.one role n.toTree))
      (hs : Target.Seen (.one role n.toTree) after) (hb : Binds (.one .pattern t) names)
      (ih : ∀ {after : Target}, Each FormedBelow (.one .pattern t) →
        Target.Seen (.one .pattern t) after → Binds after names) :
      ∃ m u, after = .one role (Node.toTree m) ∧ m.is k.name = true ∧ m.get? key = some u ∧
        Binds (.one .pattern u) names := by
    obtain ⟨m, p, q, hm, rfl⟩ := seen_toTree hs
    obtain ⟨q', hr, hmk⟩ := hm.renewed_of_kind k hk hd
    obtain ⟨c, rfl⟩ := hb.isNode
    obtain ⟨d, a, b, hd, hc, -⟩ :=
      hr.field carries_lowers (childKeys_of_kind k (Node.is_iff.1 hk)) hkey hget
    refine ⟨m, d.toTree, rfl, hmk, hd, ih (each_one ?_) (.one (.node hc))⟩
    exact (hf n (by simp [trees])).1.field k hk hkey hget
  induction h generalizing after with
  | @identifier n hn =>
    obtain ⟨m, p, q, hm, rfl⟩ := seen_toTree hs
    rw [hm.eq_of_name (by decide) hn]
    exact .identifier hn
  | default hn hleft hb ih =>
    obtain ⟨m, u, rfl, hm, hu, hb⟩ := hfield .assignmentPattern hn (by decide) (by decide) hleft
      hf hs hb ih
    exact .default hm hu hb
  | rest hn harg hb ih =>
    obtain ⟨m, u, rfl, hm, hu, hb⟩ := hfield .restElement hn (by decide) (by decide) harg hf hs hb
      ih
    exact .rest hm hu hb
  | @object n t ts names hn hps hts _ ih =>
    obtain ⟨m, p, q, hm, rfl⟩ := seen_toTree hs
    obtain ⟨q', hr, hmk⟩ := hm.renewed_of_kind .objectPattern hn (by decide)
    obtain ⟨u, us, hu, hus, hseen⟩ := lowered_elements hr .objectPattern hn (by decide) hps hts
    have hbelow := (hf n (by simp [trees])).1
    have hparts := hbelow.field .objectPattern hn (by decide) hps
    have hshape := (hbelow n .refl).shape
      ⟨.objectPattern, "properties", ["Property", "RestElement"]⟩ (by simp [shapes]) hn
    rw [Node.get, hps] at hshape
    exact .object hmk hu hus (ih (fun c hc =>
      ⟨mem_elements hts hparts hc, fun _ => mem_elements hts hshape hc⟩) (.all hseen))
  | @array n t ts names hn helems hts _ ih =>
    obtain ⟨m, p, q, hm, rfl⟩ := seen_toTree hs
    obtain ⟨q', hr, hmk⟩ := hm.renewed_of_kind .arrayPattern hn (by decide)
    obtain ⟨u, us, hu, hus, hseen⟩ := lowered_elements hr .arrayPattern hn (by decide) helems hts
    have hparts := (hf n (by simp [trees])).1.field .arrayPattern hn (by decide) helems
    exact .array hmk hu hus (ih (fun c hc =>
      ⟨mem_elements hts hparts hc, fun hrole => by cases hrole⟩) (.all hseen))
  | property hn hv hb ih =>
    obtain ⟨m, u, rfl, hm, hu, hb⟩ := hfield .property hn (by decide) (by decide) hv hf hs hb ih
    exact .property hm hu hb
  | @remaining n t names hn harg hb ih =>
    obtain ⟨kind, hmem, hk⟩ := (hf n (by simp [trees])).2 rfl
    rcases mem_pair.1 hmem with rfl | rfl
    · rw [hn] at hk
      cases hk
    · obtain ⟨m, u, rfl, hm, hu, hb⟩ := hfield .restElement hk (by decide) (by decide) harg hf hs
        hb ih
      refine .remaining ?_ hu hb
      rw [Node.is_of_kind (Node.is_iff.1 hm)]
      rfl
  | nil =>
    obtain _ | @⟨_, _, us, hus⟩ := hs
    cases hus
    exact .nil
  | hole _ ih =>
    obtain _ | @⟨_, _, us, hus⟩ := hs
    obtain ⟨u, rest, hu, hrest, rfl⟩ := forall₂_cons_left_iff.1 hus
    obtain rfl : u = .null := by
      generalize ht : Tree.null = t at hu
      cases hu with
      | node => cases ht
      | other => rfl
    exact .hole (ih (fun c hc => hf c (mem_cons_of_mem _ hc)) (.all hrest))
  | cons _ _ iht ihts =>
    obtain _ | @⟨_, _, us, hus⟩ := hs
    obtain ⟨u, rest, hu, hrest, rfl⟩ := forall₂_cons_left_iff.1 hus
    exact .cons (iht (fun c hc => hf c (by simpa [trees] using .inl (mem_singleton.1 hc)))
      (.one hu)) (ihts (fun c hc => hf c (mem_cons_of_mem _ hc)) (.all hrest))

lemma DeclaratorBinds.lowered {d u : Tree} (h : DeclaratorBinds d names)
    (hd : ∀ c : Node, d = c.toTree → FormedBelow c ∧ c.is "VariableDeclarator" = true)
    (hs : Visit.Seen Lowers d u) : DeclaratorBinds u names := by
  obtain ⟨id, hid, hb⟩ := h
  obtain ⟨c, rfl, hget⟩ := attr_toTree_eq_ok hid
  obtain ⟨hf, hk⟩ := hd c rfl
  have hseen : Target.Seen (.one .pattern c.toTree) (.one .pattern u) := .one hs
  obtain ⟨m, p, q, hm, hu⟩ := seen_toTree hseen
  obtain rfl : u = m.toTree := by simpa using hu
  obtain ⟨q', hr, -⟩ := hm.renewed_of_kind .variableDeclarator hk (by decide)
  obtain ⟨e, rfl⟩ := hb.isNode
  obtain ⟨e', a, b, he', hv, -⟩ := hr.field carries_lowers
    (childKeys_of_kind .variableDeclarator (Node.is_iff.1 hk)) (by decide) hget
  refine ⟨e'.toTree, attr_eq_ok.2 he', hb.lowered (each_one ?_) (.one (.node hv))⟩
  exact hf.field .variableDeclarator hk (by decide) hget

lemma declarators_lowered {ds us : List Tree} {names : List (List Tree)}
    (h : Forall₂ DeclaratorBinds ds names)
    (hd : ∀ c : Node, c.toTree ∈ ds → FormedBelow c ∧ c.is "VariableDeclarator" = true)
    (hs : Forall₂ (Visit.Seen Lowers) ds us) : Forall₂ DeclaratorBinds us names := by
  induction h generalizing us with
  | nil =>
    cases hs
    exact .nil
  | cons hb _ ih =>
    obtain ⟨u, rest, hu, hrest, rfl⟩ := forall₂_cons_left_iff.1 hs
    exact .cons (hb.lowered (fun c hc => hd c (by simp [hc])) hu)
      (ih (fun c hc => hd c (by simp [hc])) hrest)

theorem Declares.lowered (h : Declares n names) (hf : FormedBelow n)
    (hnames : ∀ x ∈ names, ∃ c : Node, x = c.toTree ∧ c.is "Identifier" = true)
    (hm : Lowers n p m q) : Declares m names := by
  cases h with
  | @patterns t ds nss hk hdecl hds hnss =>
    obtain ⟨q', hr, hmk⟩ := hm.renewed_of_kind .variableDeclaration hk (by decide)
    obtain ⟨u, us, hu, hus, hseen⟩ := lowered_elements hr .variableDeclaration hk (by decide)
      hdecl hds
    have hparts := hf.field .variableDeclaration hk (by decide) hdecl
    have hshape := (hf n .refl).shape
      ⟨.variableDeclaration, "declarations", ["VariableDeclarator"]⟩ (by simp [shapes]) hk
    rw [Node.get, hdecl] at hshape
    refine .patterns hmk hu hus (declarators_lowered hnss (fun c hc => ?_) hseen)
    exact ⟨mem_elements hds hparts hc, by simpa using mem_elements hds hshape hc⟩
  | @named kind id hmem hk hid =>
    obtain ⟨c, rfl, hc⟩ := hnames id (by simp)
    have hnamed (k : Kind) (hk : n.is k.name = true) (hd : k.name ∉ dissolved)
        (hkey : "id" ∈ k.children) : m.is k.name = true ∧ m.get? "id" = some c.toTree := by
      obtain ⟨q', hr, hmk⟩ := hm.renewed_of_kind k hk hd
      exact ⟨hmk, lowered_name hr k hk hkey (by decide) hc hid⟩
    rcases mem_pair.1 hmem with rfl | rfl
    · obtain ⟨hmk, hmid⟩ := hnamed .functionDeclaration hk (by decide) (by decide)
      exact .named hmem hmk hmid
    · obtain ⟨hmk, hmid⟩ := hnamed .classDeclaration hk (by decide) (by decide)
      exact .named hmem hmk hmid

end Patterns

end Overload.Lowering
