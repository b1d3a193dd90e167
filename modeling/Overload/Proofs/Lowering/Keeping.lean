import Overload.Proofs.Lowering.Boundary
import Overload.Proofs.Lowering.Visits

/-!
What lowering keeps: a node that pauses its function is found again in the lowered program, inside
of the same functions.
-/

namespace Overload.Lowering

open Visit List Node Option

variable {least : Nat}

inductive Keeps (n : Node) (place : String × Option Nat) : Prop
  | plain : (∀ kind ∈ dissolved, n.is kind = false) → Keeps n place
  | operand {kind : String} : kind ∈ operands.map (·.1) → n.is kind = true → place.2 = none →
      Keeps n place
  | declared : n.is "ExportNamedDeclaration" = true → (n.get "source").isNull = true →
      place.1 = "declaration" → Keeps n place
  | default : n.is "ExportDefaultDeclaration" = true → Keeps n place

lemma keeps_iff {n : Node} {place : String × Option Nat} : Keeps n place ↔
    (∀ kind ∈ dissolved, n.is kind = false) ∨
      (∃ kind ∈ operands.map (·.1), n.is kind = true) ∧ place.2 = none ∨
      n.is "ExportNamedDeclaration" = true ∧ (n.get "source").isNull = true ∧
        place.1 = "declaration" ∨ n.is "ExportDefaultDeclaration" = true := by
  constructor
  · rintro (h | ⟨hmem, hk, hi⟩ | ⟨hk, hs, hkey⟩ | h)
    · exact .inl h
    · exact .inr (.inl ⟨⟨_, hmem, hk⟩, hi⟩)
    · exact .inr (.inr (.inl ⟨hk, hs, hkey⟩))
    · exact .inr (.inr (.inr h))
  · rintro (h | ⟨⟨kind, hmem, hk⟩, hi⟩ | ⟨hk, hs, hkey⟩ | h)
    · exact .plain h
    · exact .operand hmem hk hi
    · exact .declared hk hs hkey
    · exact .default h

instance (n : Node) (place : String × Option Nat) : Decidable (Keeps n place) :=
  decidable_of_iff _ keeps_iff.symm

def KeepsWith (n : Node) (place : String × Option Nat) (ups : List Node) : Prop :=
  Keeps n place ∧ (n.isFunction = true → ∀ u ∈ ups, u.is "ExportDefaultDeclaration" = false)

instance (n : Node) (place : String × Option Nat) (ups : List Node) :
    Decidable (KeepsWith n place ups) := inferInstanceAs (Decidable (_ ∧ _))

inductive Kept : Node → Node → List Node → Prop
  | here {n : Node} : Kept n n []
  | step {n y : Node} {s : Visit.Slot} {ups : List Node} : s ∈ slots n → KeepsWith n s.place ups →
      Kept s.child y ups → Kept n y (ups ++ [n])

/-- The node is found again below the other one, inside of the given functions. -/
def Found (least : Nat) (m y : Node) (fs : List Nat) : Prop :=
  ∃ z ups, Path m z ups ∧ z.id = y.id ∧ z.kind = y.kind ∧ hosts least ups = fs

lemma Found.under {m c y : Node} {ups : List Node} {fs : List Nat} (h : Found least c y fs)
    (hp : Path m c ups) : Found least m y (fs ++ hosts least ups) := by
  obtain ⟨z, downs, hz, hid, hkind, rfl⟩ := h
  exact ⟨z, downs ++ ups, hp.trans hz, hid, hkind, hosts_append downs ups⟩

def FoundIn (least : Nat) (s : State) (y : Node) (fs : List Nat) : Prop :=
  s.options.returnsExports = true ∧
    ∃ e ∈ s.exports, ∃ c : Node, e.declaration = c.toTree ∧ Found least c y fs

lemma FoundIn.mono {p q : Progress State} (hpq : Extends p q) {y : Node} {fs : List Nat}
    (h : FoundIn least p.state y fs) : FoundIn least q.state y fs := by
  obtain ⟨hreturns, e, he, hc⟩ := h
  exact ⟨by rw [hpq.options, hreturns], e, hpq.exports.subset he, hc⟩

section Wraps

variable {k : Nat} {n c : Node}

def Wraps (k : Nat) (n c : Node) : Prop :=
  ∃ ups, Path n c (ups ++ [n]) ∧ ∀ u ∈ ups, k ≤ u.id

lemma wraps_child {s : Visit.Slot} (hs : s ∈ slots n) : Wraps k n s.child :=
  ⟨[], .step hs .here, by simp⟩

lemma Wraps.up {s : Visit.Slot} (h : Wraps k s.child c) (hs : s ∈ slots n)
    (hk : k ≤ s.child.id) : Wraps k n c := by
  obtain ⟨ups, hp, hups⟩ := h
  refine ⟨ups ++ [s.child], .step hs hp, fun u hu => ?_⟩
  rcases mem_append.1 hu with hu | hu
  · exact hups u hu
  · exact mem_singleton.1 hu ▸ hk

lemma Wraps.landed {new : Node} (h : Wraps k new c) (parent : Option Node) (old : Node) :
    Wraps k (landed parent old new) c := by
  cases parent with
  | some _ => exact h
  | none =>
    obtain ⟨ups, hp, hups⟩ := h
    obtain ⟨-, s, hs, hc⟩ := (show Path new c (ups ++ new :: []) from hp).split
    exact ⟨ups, .step (n := old.overwrite new) hs hc, hups⟩

def WrapsIn (k : Nat) (t : Tree) (c : Node) : Prop :=
  ∃ n : Node, t = n.toTree ∧ k ≤ n.id ∧ Wraps k n c

variable {i : Nat} {kind key : String} {fields : List (String × Tree)} {t : Tree}

lemma wrapsIn_child (K : Kind) (hK : K.name = kind) (hkey : key ∈ K.children) (hne : key ≠ "type")
    (hget : Entries.get? key fields = some c.toTree) (hi : k ≤ i) :
    WrapsIn k (.node i (.str kind) fields) c := by
  subst hK
  exact ⟨⟨i, .str K.name, fields⟩, rfl, hi, wraps_child (slot_of_get? (childKeys_of_kind K rfl)
    hkey (by simpa [get?, hne] using hget))⟩

lemma WrapsIn.field (h : WrapsIn k t c) (K : Kind) (hK : K.name = kind) (hkey : key ∈ K.children)
    (hne : key ≠ "type") (hget : Entries.get? key fields = some t) (hi : k ≤ i) :
    WrapsIn k (.node i (.str kind) fields) c := by
  obtain ⟨n, rfl, hn, hw⟩ := h
  subst hK
  have hs : (⟨key, none, n⟩ : Visit.Slot) ∈ slots ⟨i, .str K.name, fields⟩ :=
    slot_of_get? (childKeys_of_kind K rfl) hkey (by simpa [get?, hne] using hget)
  exact ⟨⟨i, .str K.name, fields⟩, rfl, hi, hw.up hs hn⟩

lemma WrapsIn.item (h : WrapsIn k t c) (K : Kind) (hK : K.name = kind) (hkey : key ∈ K.children)
    (hne : key ≠ "type") {xs : List Tree} (hget : Entries.get? key fields = some (.list xs))
    (ht : t ∈ xs) (hi : k ≤ i) : WrapsIn k (.node i (.str kind) fields) c := by
  obtain ⟨n, rfl, hn, hw⟩ := h
  subst hK
  obtain ⟨j, hj⟩ := getElem?_of_mem ht
  have hs : (⟨key, some j, n⟩ : Visit.Slot) ∈ slots ⟨i, .str K.name, fields⟩ :=
    slot_of_item (childKeys_of_kind K rfl) hkey (by simpa [get?, hne] using hget) hj
  exact ⟨⟨i, .str K.name, fields⟩, rfl, hi, hw.up hs hn⟩

lemma wrapsIn_call {callee : Tree} {arguments : List Tree} (hc : c.toTree ∈ arguments)
    (hi : k ≤ i) : WrapsIn k (Build.call callee arguments i).1 c := by
  obtain ⟨j, hj⟩ := getElem?_of_mem hc
  exact ⟨⟨i, .str "CallExpression", _⟩, rfl, hi, wraps_child
    (slot_of_item (childKeys_of_kind .callExpression rfl) (show "arguments" ∈ _ by decide) rfl hj)⟩

lemma wrapsIn_assigned (helper : String) (name token : Tree) (hi : k ≤ i) :
    WrapsIn k (assigned i helper name token c.toTree) c := by
  have hcall : WrapsIn k (dispatchCall (i + 1) helper (Build.identifier name i).1 token c.toTree) c :=
    wrapsIn_call (by simp) (by omega)
  exact hcall.field .assignmentExpression rfl (show "right" ∈ _ by decide) (by decide) rfl (by omega)

lemma WrapsIn.statement (h : WrapsIn k t c) (hi : k ≤ i) :
    WrapsIn k (Build.statement t i).1 c :=
  h.field .expressionStatement rfl (show "expression" ∈ _ by decide) (by decide) rfl hi

lemma WrapsIn.block {body : List Tree} (h : WrapsIn k t c) (ht : t ∈ body) (hi : k ≤ i) :
    WrapsIn k (Build.block body i).1 c :=
  h.item .blockStatement rfl (show "body" ∈ _ by decide) (by decide) rfl ht hi

lemma WrapsIn.settled {body : List Tree} {isAsync : Bool} (h : WrapsIn k t c) (ht : t ∈ body)
    (hi : k ≤ i) : WrapsIn k (settled i body isAsync) c := by
  have harrow : WrapsIn k (arrowOf i body isAsync).toTree c :=
    (h.block ht hi).field .arrowFunctionExpression rfl (show "body" ∈ _ by decide) (by decide) rfl
      (show k ≤ i + 1 by omega)
  have hcall : WrapsIn k (callOf i body isAsync).toTree c :=
    harrow.field .callExpression rfl (show "callee" ∈ _ by decide) (by decide) rfl
      (show k ≤ i + 2 by omega)
  rw [settled_eq]
  cases isAsync with
  | false => exact hcall
  | true =>
    exact hcall.field .awaitExpression rfl (show "argument" ∈ _ by decide) (by decide) rfl
      (show k ≤ i + 3 by omega)

end Wraps

section Rewritten

variable {m : Node} {k j : Nat} {s s' : State} {keys : List String} {key : String} {c : Node}

lemma NameIn.is {name : Tree} (h : NameIn m key name) (hc : m.get? key = some c.toTree) :
    c.is "Identifier" = true := by
  obtain ⟨d, hd, his, -⟩ := h
  obtain rfl := toTree_injective (some.inj (hd.symm.trans hc))
  exact his

lemma Operand.of_field {name value : Tree} (h : Operand m k keys name value j) (hkey : key ∈ keys)
    (hc : m.get? key = some c.toTree) : c.is "Identifier" = true ∨ value = c.toTree ∧ k = j := by
  cases h with
  | one hname =>
    obtain rfl := mem_singleton.1 hkey
    exact .inl (hname.is hc)
  | right hname hv =>
    rcases mem_cons.1 hkey with rfl | hkey
    · exact .inl (hname.is hc)
    · obtain rfl := mem_singleton.1 hkey
      exact .inr ⟨some.inj (hv.symm.trans hc), rfl⟩

lemma Rewritten.operand {new : Node} (h : Rewritten m k s keys new.toTree j s') (hkey : key ∈ keys)
    (hc : m.get? key = some c.toTree) : c.is "Identifier" = true ∨ Wraps k new c := by
  generalize ht : new.toTree = t at h
  have hnew (hw : WrapsIn k t c) : c.is "Identifier" = true ∨ Wraps k new c := by
    obtain ⟨n, hn, -, hw⟩ := hw
    obtain rfl := toTree_injective (ht.trans hn)
    exact .inr hw
  cases h with
  | unary ha =>
    obtain rfl := mem_singleton.1 hkey
    obtain rfl := some.inj (ha.symm.trans hc)
    exact hnew (wrapsIn_call (by simp) (by omega))
  | binary hl hr =>
    rcases mem_cons.1 hkey with rfl | hkey
    · obtain rfl := some.inj (hl.symm.trans hc)
      exact hnew (wrapsIn_call (by simp) (by omega))
    · obtain rfl := mem_singleton.1 hkey
      obtain rfl := some.inj (hr.symm.trans hc)
      exact hnew (wrapsIn_call (by simp) (by omega))
  | assign hv _ =>
    rcases hv.of_field hkey hc with hi | ⟨rfl, rfl⟩
    · exact .inl hi
    · exact hnew (wrapsIn_assigned _ _ _ (Nat.le_refl k))
  | assignThenReturn hv _ _ =>
    rcases hv.of_field hkey hc with hi | ⟨rfl, rfl⟩
    · exact .inl hi
    · exact hnew (((wrapsIn_assigned _ _ _ (Nat.le_refl k)).statement
        (Nat.le_add_right k 6)).settled mem_cons_self (by omega))
  | returnThenAssign hname =>
    obtain rfl := mem_singleton.1 hkey
    exact .inl (hname.is hc)

end Rewritten

def Retained (least : Nat) (m : Node) (s : State) (y : Node) (ups : List Node) : Prop :=
  Found least m y (hosts least ups) ∨
    (∃ u ∈ ups, u.is "ExportDefaultDeclaration" = true) ∧ FoundIn least s y (hosts least ups)

def Retains (least : Nat) (n : Node) (p : Progress State) (m : Node) (q : Progress State) : Prop :=
  Extends p q ∧ (least ≤ p.next → ∀ y ups, Kept n y ups → (∃ kind ∈ pauses, y.is kind = true) →
    Retained least m q.state y ups)

lemma carries_retains : Carries (Retains least) Extends := ⟨.refl, .trans, fun h => h.1⟩

section Step

variable {n m m' c y : Node} {p q q' : Progress State} {place : Place} {fs : List Nat}

lemma Wraps.found {k : Nat} (h : Wraps k m c) (hk : least ≤ k) (hm : m.isFunction = false)
    (hf : Found least c y fs) : Found least m y fs := by
  obtain ⟨ups, hp, hups⟩ := h
  have := hf.under hp
  rwa [hosts_append, hosts_singleton hm, hosts_of_new fun u hu => Nat.le_trans hk (hups u hu),
    append_nil, append_nil] at this

lemma Found.not_identifier (h : Found least c y fs) (hy : ∃ kind ∈ pauses, y.is kind = true) :
    c.is "Identifier" = false := by
  obtain ⟨z, ups, hz, -, hkind, -⟩ := h
  obtain ⟨kind, hmem, hk⟩ := hy
  by_contra hc
  rw [Bool.not_eq_false] at hc
  cases hz with
  | here =>
    have hne : ∀ kind ∈ pauses, kind ≠ "Identifier" := by decide
    refine is_unique hk ?_ (hne kind hmem)
    rwa [is, ← hkind]
  | step hs =>
    rw [slots_of_childKeys (childKeys_of_kind .identifier (is_iff.1 hc))] at hs
    simp [slotsOf, Kind.children] at hs

lemma childKeys_of_operands {kind : String} {keys : List String} (h : (kind, keys) ∈ operands)
    (hk : m.is kind = true) : m.childKeys = .ok keys := by
  simp only [operands, mem_cons, Prod.mk.injEq, not_mem_nil, or_false] at h
  rcases h with ⟨rfl, rfl⟩ | ⟨rfl, rfl⟩ | ⟨rfl, rfl⟩ | ⟨rfl, rfl⟩ | ⟨rfl, rfl⟩
  · exact childKeys_of_kind .unaryExpression (is_iff.1 hk)
  · exact childKeys_of_kind .binaryExpression (is_iff.1 hk)
  · exact childKeys_of_kind .logicalExpression (is_iff.1 hk)
  · exact childKeys_of_kind .updateExpression (is_iff.1 hk)
  · exact childKeys_of_kind .assignmentExpression (is_iff.1 hk)

lemma Declared.eq_declaration {k j : Nat} {s s' : State} (h : Declared m k s m'.toTree j s')
    (hk : m.is "ExportNamedDeclaration" = true) (hsource : (m.get "source").isNull = true)
    {t : Visit.Slot} (ht : t ∈ slots m) (hkey : t.key = "declaration") : m' = t.child := by
  have hpart := part_of_slot ht
  rw [hkey] at hpart
  generalize hu : m'.toTree = u at h
  cases h with
  | exportDeclared =>
    rcases hpart with hc | ⟨xs, hxs, -⟩
    · exact toTree_injective (hu.trans hc)
    · cases hu.trans hxs
  | exportFrom _ _ hs hnull =>
    rw [Node.get, hs, getD_some, hnull] at hsource
    cases hsource
  | exportLocals _ _ hnull =>
    rcases hpart with hc | ⟨xs, hxs, -⟩
    · rw [hc] at hnull
      cases hnull
    · rw [hxs] at hnull
      cases hnull
  | importAll ho | importNames ho | exportDefaultName ho | exportDefaultValue ho | exportAll ho =>
    exact (is_unique hk ho (by decide)).elim

lemma Declared.default_cases {k j : Nat} {s s' : State} (h : Declared m k s m'.toTree j s')
    (hk : m.is "ExportDefaultDeclaration" = true) {t : Visit.Slot} (ht : t ∈ slots m) :
    m' = t.child ∨ s'.options.returnsExports = true ∧
      ∃ e ∈ s'.exports, e.declaration = t.child.toTree := by
  have hpart := part_of_slot ht
  have hkey := ((mem_slots_iff (childKeys_of_kind .exportDefaultDeclaration
    (is_iff.1 hk))).1 ht).1
  rw [mem_singleton.1 (show t.key ∈ ["declaration"] from hkey)] at hpart
  generalize hu : m'.toTree = u at h
  cases h with
  | exportDefaultName _ hd =>
    rw [Node.get, hd, getD_some, ← hu] at hpart
    rcases hpart with hc | ⟨xs, hxs, -⟩
    · exact .inl (toTree_injective hc)
    · cases hxs
  | exportDefaultValue _ hd hid _ _ _ hreturns =>
    rw [Node.get, hd, getD_some] at hpart
    rcases hpart with rfl | ⟨xs, rfl, -⟩
    · exact .inr ⟨hreturns, _, mem_append_right _ (mem_singleton_self _), rfl⟩
    · cases hid
  | importAll ho | importNames ho | exportAll ho | exportFrom ho | exportDeclared ho
  | exportLocals ho => exact (is_unique hk ho (by decide)).elim

lemma Stepped.same (h : Stepped place m q m' q') (hp : place.parent = none → m.is "Program" = false)
    (hm : ∀ kind ∈ dissolved, m.is kind = false) : m' = m := by
  cases h with
  | turned ht => rw [ht.same hm, landed_self]
  | program hnone hk =>
    rw [hp hnone] at hk
    cases hk

lemma retained_child (hq : least ≤ q.next) (hr : Renewed (Retains least) n p m q)
    (hs : Stepped place m q m' q')
    (hroot : place.parent = none →
      m.is "Program" = false ∧ ∀ kind ∈ exportKinds, m.is kind = false)
    {t : Visit.Slot} (ht : t ∈ slots m) (hkeeps : Keeps n t.place) {ups : List Node}
    (hf : Found least t.child y (hosts least ups)) (hy : ∃ kind ∈ pauses, y.is kind = true) :
    Retained least m' q'.state y (ups ++ [n]) := by
  have hkind {kind : String} : m.is kind = n.is kind := hr.is kind
  have hsame : Found least m y (hosts least (ups ++ [n])) := by
    have := hf.under (.child ht)
    rwa [hosts_congr hr.id hr.kind, ← hosts_append] at this
  have hno {kind : String} (hk : m.is kind = true) (hmem : kind ∈ dissolved) :
      hosts least (ups ++ [n]) = hosts least ups := by
    have hall : ∀ kind ∈ dissolved, kind ∉ Tree.functionKinds := by decide
    rw [hosts_append, hosts_singleton (isFunction_of_kind (hr.kind ▸ is_iff.1 hk)
      (hall kind hmem)), append_nil]
  have hexport {kind : String} (hk : m.is kind = true) (hmem : kind ∈ exportKinds) :
      ∃ k s, Declared m q.next q.state m'.toTree k s ∧ q' = ⟨k, q.notes, s⟩ := by
    have hsub : ∀ kind ∈ exportKinds, kind ∈ moduleKinds := by decide
    refine (hs.inner fun hnone => ?_).declared (hsub kind hmem) hk
    rw [(hroot hnone).2 kind hmem] at hk
    cases hk
  cases hkeeps with
  | plain hplain =>
    obtain rfl := hs.same (fun h => (hroot h).1) fun kind hk => hkind.trans (hplain kind hk)
    exact .inl hsame
  | @operand kind hmem hk hindex =>
    have hmk := hkind.trans hk
    cases hs with
    | turned hs =>
      cases hs with
      | still => exact .inl (by rwa [landed_self])
      | @operator other keys new k s ho hother hrew =>
        have hkeys := childKeys_of_operands ho hother
        obtain ⟨hkey, hheld⟩ := (mem_slots_iff hkeys).1 ht
        have hget : m.get? t.key = some t.child.toTree := by
          rcases held_iff.1 hheld with ⟨hc, -⟩ | ⟨xs, i, -, -, hi⟩
          · exact get?_of_get hc (by simp [toTree])
          · cases hindex.symm.trans hi
        rcases hrew.operand hkey hget with hid | hwraps
        · rw [hf.not_identifier hy] at hid
          cases hid
        · refine .inl ?_
          rw [hno hmk (mem_append_left _ hmem)]
          refine (hwraps.landed place.parent m).found hq ?_ hf
          cases place.parent <;> exact hrew.isFunction
      | declaration hd =>
        obtain ⟨other, homem, ho⟩ := hd.is_module
        have hall : ∀ kind ∈ operands.map (·.1), kind ∉ moduleKinds := by decide
        exact (is_unique hmk ho fun he => hall kind hmem (he ▸ homem)).elim
    | program _ ho =>
      have hall : ∀ kind ∈ operands.map (·.1), kind ≠ "Program" := by decide
      exact (is_unique hmk ho (hall kind hmem)).elim
  | declared hk hsource hkey =>
    have hmk := hkind.trans hk
    obtain ⟨k, s, hd, -⟩ := hexport hmk (by decide)
    obtain rfl := hd.eq_declaration hmk (hr.isNull hsource) ht hkey
    exact .inl (hno hmk (by decide) ▸ hf)
  | default hk =>
    have hmk := hkind.trans hk
    obtain ⟨k, s, hd, rfl⟩ := hexport hmk (by decide)
    rw [Retained, hno hmk (by decide)]
    rcases hd.default_cases hmk ht with rfl | ⟨hreturns, e, he, hdecl⟩
    · exact .inl hf
    · exact .inr ⟨⟨n, by simp, hk⟩, hreturns, e, he, _, hdecl, hf⟩

lemma retained_step (hp : least ≤ p.next) (hr : Renewed (Retains least) n p m q)
    (hs : Stepped place m q m' q') (hext : Extends q q')
    (hroot : place.parent = none →
      m.is "Program" = false ∧ ∀ kind ∈ exportKinds, m.is kind = false) {ups : List Node}
    (hkept : Kept n y ups) (hy : ∃ kind ∈ pauses, y.is kind = true) :
    Retained least m' q'.state y ups := by
  have hnext := (hr.progress carries_retains).next
  cases hkept with
  | here =>
    obtain ⟨kind, hmem, hk⟩ := hy
    have hall : ∀ kind ∈ pauses, kind ∉ dissolved := by decide
    obtain rfl := hs.same (fun h => (hroot h).1)
      (is_other (hr.kind.trans (is_iff.1 hk)) (hall kind hmem))
    exact .inl ⟨m', [], .here, hr.id, hr.kind, rfl⟩
  | @step _ _ s ups hs' hkeeps hc =>
    obtain ⟨c, a, b, ht, hret, ha, hb⟩ := hr.mem_of_slot carries_retains hs'
    rcases hret.2 (Nat.le_trans hp ha.next) _ _ hc hy with hf | ⟨⟨u, hu, hdefault⟩, hin⟩
    · exact retained_child (Nat.le_trans hp hnext) hr hs hroot ht hkeeps.1 hf hy
    · have hn : n.isFunction = false := by
        by_contra hn
        rw [hkeeps.2 (by simpa using hn) u hu] at hdefault
        cases hdefault
      refine .inr ⟨⟨u, mem_append_left _ hu, hdefault⟩, ?_⟩
      rw [hosts_append, hosts_singleton hn, append_nil]
      exact hin.mono (hb.trans hext)

end Step

lemma Lowers.retains {n m : Node} {p q : Progress State} (h : Lowers n p m q) :
    Retains least n p m q :=
  h.induction fun _ _ _ _ _ _ _ hr hs hext =>
    ⟨(hr.progress carries_retains).trans hext, fun hp _ _ =>
      retained_step hp hr hs.stepped hext nofun⟩

section Root

variable {root m root' c y : Node} {p q q' : Progress State} {k j : Nat} {s : State} {t : Tree}
  {e : Export} {fs : List Nat}

lemma wrapsIn_exported (h : Exported k e t) (hc : e.declaration = c.toTree) : WrapsIn k t c := by
  cases h with
  | spread _ hi =>
    exact wrapsIn_child .spreadElement rfl (show "argument" ∈ _ by decide) (by decide)
      (congrArg some hc) hi
  | property _ hi =>
    exact wrapsIn_child .property rfl (show "value" ∈ _ by decide) (by decide) (congrArg some hc) hi

lemma wrapsIn_returned {exports : List Export} (h : returned exports k = (.ok t, j))
    (he : e ∈ exports) (hc : e.declaration = c.toTree) : WrapsIn k t c := by
  obtain ⟨-, i, l, ps, hi, hl, hps, rfl⟩ := supplies_returned k exports k t j (Nat.le_refl k) h
  obtain ⟨x, hx, hex⟩ := exists_of_forall₂ hps.flip he
  have hobject : WrapsIn k (.node i (.str "ObjectExpression") [("properties", .list ps)]) c :=
    (wrapsIn_exported hex hc).item .objectExpression rfl
      (show "properties" ∈ _ by decide) (by decide) rfl hx hi
  exact hobject.field .returnStatement rfl (show "argument" ∈ _ by decide) (by decide) rfl hl

lemma Closes.slot (h : Closes m k s root' j) (hm : m.is "Program" = true) {t : Visit.Slot}
    (ht : t ∈ slots m) : t ∈ slots root' := by
  obtain ⟨hkey, hheld⟩ := (mem_slots_iff (childKeys_of_kind .program (is_iff.1 hm))).1 ht
  have hbody : t.key = "body" := mem_singleton.1 hkey
  cases h with
  | plain =>
    refine (mem_slots_iff (childKeys_of_kind .blockStatement rfl)).2 ⟨hkey, ?_⟩
    rwa [Held, hbody, get_asBlock, ← hbody]
  | exports _ hget =>
    refine (mem_slots_iff (childKeys_of_kind .blockStatement rfl)).2 ⟨hkey, ?_⟩
    rw [held_iff, hbody, Node.get, hget, getD_some] at hheld
    rw [held_iff, hbody, get_appended]
    rcases hheld with ⟨hc, -⟩ | ⟨xs, i, hxs, hi, hindex⟩
    · cases hc
    · obtain rfl := Tree.list.inj hxs
      have hlt := (List.getElem?_eq_some_iff.1 hi).1
      exact .inr ⟨_, i, rfl, by rw [getElem?_append_left hlt, hi], hindex⟩

lemma Closes.isFunction (h : Closes m k s root' j) : root'.isFunction = false := by
  cases h <;> rfl

lemma Closes.found (h : Closes m k s root' j) (hk : least ≤ k) (hin : FoundIn least s y fs) :
    Found least root' y fs := by
  obtain ⟨hreturns, e, he, c, hc, hf⟩ := hin
  have hroot := h.isFunction
  cases h with
  | plain hno =>
    rw [hreturns] at hno
    cases hno
  | @exports body t j _ hget hret =>
    obtain ⟨n, rfl, hn, hwraps⟩ := wrapsIn_returned hret he hc
    have hslot : (⟨"body", some body.length, n⟩ : Visit.Slot) ∈
        slots (appended (asBlock m) body n.toTree) := by
      refine slot_of_item (childKeys_of_kind .blockStatement rfl)
        (show "body" ∈ _ by decide) (get?_of_get (get_appended ..) (by simp)) (by simp)
    exact (hwraps.up hslot hn).found hk hroot hf

theorem found_root (hp : least ≤ p.next) (hr : Renewed (Retains least) root p m q)
    (hs : Stepped ⟨none, "", none⟩ m q root' q') (hext : Extends q q')
    (hexport : ∀ kind ∈ exportKinds, root.is kind = false) {ups : List Node}
    (hkept : Kept root y ups) (hy : ∃ kind ∈ pauses, y.is kind = true)
    (hend : root.is "Program" = true ∨ ∀ u ∈ ups, u.is "ExportDefaultDeclaration" = false) :
    Found least root' y (hosts least ups) := by
  have hkind {kind : String} : m.is kind = root.is kind := hr.is kind
  have hnext := Nat.le_trans hp (hr.progress carries_retains).next
  cases hprogram : root.is "Program" with
  | false =>
    rcases retained_step hp hr hs hext (fun _ => ⟨hkind.trans hprogram, fun kind hk =>
      hkind.trans (hexport kind hk)⟩) hkept hy with hf | ⟨⟨u, hu, hdefault⟩, -⟩
    · exact hf
    · rw [hprogram] at hend
      rw [hend.resolve_left (by simp) u hu] at hdefault
      cases hdefault
  | true =>
    obtain ⟨k, hc, -⟩ := hs.closes rfl (hkind.trans hprogram)
    cases hkept with
    | here =>
      obtain ⟨kind, hmem, hk⟩ := hy
      have hall : ∀ kind ∈ pauses, kind ≠ "Program" := by decide
      exact (is_unique hk hprogram (hall kind hmem)).elim
    | @step _ _ s ups hs' _ hkept =>
      obtain ⟨c, a, b, ht, hret, ha, hb⟩ := hr.mem_of_slot carries_retains hs'
      have hn : root.isFunction = false := isFunction_of_kind (is_iff.1 hprogram) (by decide)
      rw [hosts_append, hosts_singleton hn, append_nil]
      rcases hret.2 (Nat.le_trans hp ha.next) _ _ hkept hy with hf | ⟨-, hin⟩
      · have := hf.under (.child (hc.slot (hkind.trans hprogram) ht))
        rwa [hosts_singleton hc.isFunction, append_nil] at this
      · exact hc.found hnext (hin.mono hb)

end Root

end Overload.Lowering
