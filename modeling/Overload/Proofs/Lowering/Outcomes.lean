import Overload.Proofs.Lowering.Complete
import Overload.Proofs.Visit.Search

/-! How rules end. -/

namespace Overload.Lowering

open Visit State Overload.Tree

variable {α β : Type}

structure At (options : Options) (m : Node) (c : Context State) : Prop where
  node : c.site.node = m
  placed : c.site.Placed
  same : c.state.options = options

def Goes (options : Options) (m : Node) (a : Step α) (Q : α → Prop) (E : Fault → Prop) : Prop :=
  ∀ c, At options m c → (∃ y d, a c = (.ok y, d) ∧ At options m d ∧ Q y) ∨
    ∃ fault d, a c = (.error fault, d) ∧ E fault

def Ends (options : Options) (m : Node) (rule : Step Unit) (P : Prop) (E : Fault → Prop) : Prop :=
  ∀ c, At options m c → (∃ d, rule c = (.ok (), d) ∧ P) ∨
    ∃ fault d, rule c = (.error fault, d) ∧ E fault

lemma options_use (s : State) (h : Helper) : (s.use h).2.options = s.options := by
  cases h with
  | unary => simp only [use, useUnary]; split <;> rfl
  | binary => simp only [use, useBinary]; split <;> rfl
  | importer => simp only [use, useImport]; split <;> rfl
  | temporary => rfl

variable {options : Options} {m : Node} {E : Fault → Prop} {P : Prop}

namespace Goes

variable {a : Step α} {Q : α → Prop}

lemma bind {R : β → Prop} {f : α → Step β} (ha : Goes options m a Q E)
    (hf : ∀ x, Q x → Goes options m (f x) R E) : Goes options m (a >>= f) R E := by
  intro c hc
  rw [bind_def]
  rcases ha c hc with ⟨y, d, hy, hd, hQ⟩ | ⟨fault, d, hfault, hE⟩
  · rw [hy]
    exact hf y hQ d hd
  · rw [hfault]
    exact .inr ⟨fault, d, rfl, hE⟩

lemma ends {f : α → Step Unit} (ha : Goes options m a Q E)
    (hf : ∀ x, Q x → Ends options m (f x) P E) : Ends options m (a >>= f) P E := by
  intro c hc
  rw [bind_def]
  rcases ha c hc with ⟨y, d, hy, hd, hQ⟩ | ⟨fault, d, hfault, hE⟩
  · rw [hy]
    exact hf y hQ d hd
  · rw [hfault]
    exact .inr ⟨fault, d, rfl, hE⟩

lemma of_eq {y : Context State → α} {d : Context State → Context State}
    (h : ∀ c, a c = (.ok (y c), d c)) (hd : ∀ c, At options m c → At options m (d c) ∧ Q (y c)) :
    Goes options m a Q E :=
  fun c hc => .inl ⟨y c, d c, h c, hd c hc⟩

lemma pure {x : α} (h : Q x) : Goes options m (pure x) Q E := of_eq (fun _ => rfl) fun _ hc => ⟨hc, h⟩

lemma throw {fault : Fault} (h : E fault) : Goes options m (throw fault) Q E :=
  fun c _ => .inr ⟨fault, c, rfl, h⟩

lemma lift {r : Except Fault α} {x : α} (h : r = .ok x) : Goes options m (lift r) (· = x) E :=
  of_eq (fun _ => by rw [h]; rfl) fun _ hc => ⟨hc, rfl⟩

lemma fail {r : Except Fault α} {fault : Fault} (h : r = .error fault) (hE : E fault) :
    Goes options m (Visit.lift r) Q E :=
  fun c _ => .inr ⟨fault, c, by rw [h]; rfl, hE⟩

lemma getNode : Goes options m getNode (· = m) E := of_eq (fun _ => rfl) fun _ hc => ⟨hc, hc.node⟩

lemma getState : Goes options m getState (·.options = options) E :=
  of_eq (fun _ => rfl) fun _ hc => ⟨hc, hc.same⟩

lemma attr {key : String} {t : Tree} (h : m.get? key = some t) : Goes options m (attr key) (· = t) E :=
  fun c hc => .inl ⟨t, c, getAttr_eq_ok.2 ⟨hc.node ▸ h, rfl⟩, hc, rfl⟩

lemma build {f : Fresh α} (h : ∀ k, Q (f k).1) : Goes options m (build f) Q E :=
  of_eq (fun _ => rfl) fun c hc => ⟨⟨hc.node, hc.placed, hc.same⟩, h c.next⟩

lemma node {f : Fresh Tree} (h : ∀ k, (f k).1.isNode = true) :
    Goes options m (Visit.build f) (·.isNode = true) E := build h

lemma made (f : Fresh α) : Goes options m (Visit.build f) (fun _ => True) E := build fun _ => trivial

lemma use (h : Helper) : Goes options m (useHelper h) (fun _ => True) E :=
  of_eq (fun _ => rfl) fun c hc =>
    ⟨⟨hc.node, hc.placed, (options_use c.state h).trans hc.same⟩, trivial⟩

lemma record (e : Export) : Goes options m (recordExport e) (fun _ => True) E :=
  of_eq (fun _ => rfl) fun _ hc => ⟨⟨hc.node, hc.placed, hc.same⟩, trivial⟩

lemma mapM {f : α → Step β} {R : α → Prop} {xs : List α}
    (h : ∀ x ∈ xs, Goes options m (f x) (fun _ => R x) E) :
    Goes options m (xs.mapM f) (fun _ => ∀ x ∈ xs, R x) E := by
  induction xs with
  | nil => exact pure (by simp)
  | cons x xs ih =>
    rw [List.mapM_cons]
    refine (h x (by simp)).bind fun y hx => ?_
    refine (ih fun z hz => h z (by simp [hz])).bind fun ys hxs => pure ?_
    simpa using ⟨hx, hxs⟩

lemma forM {f : α → Step PUnit} {xs : List α}
    (h : ∀ x ∈ xs, Goes options m (f x) (fun _ => True) E) :
    Goes options m (xs.forM f) (fun _ => True) E := by
  induction xs with
  | nil => exact pure trivial
  | cons x xs ih => exact (h x (by simp)).bind fun _ _ => ih fun z hz => h z (by simp [hz])

end Goes

namespace Ends

variable {a : α → Step Unit}

lemma attr {key : String} {t : Tree} {f : Tree → Step Unit} (h : m.get? key = some t)
    (hf : Ends options m (f t) P E) : Ends options m (attr key >>= f) P E :=
  (Goes.attr h).ends fun _ ht => ht ▸ hf

lemma lift {r : Except Fault α} {x : α} (h : r = .ok x) (ha : Ends options m (a x) P E) :
    Ends options m (lift r >>= a) P E :=
  (Goes.lift h).ends fun _ hx => hx ▸ ha

lemma made {f : Fresh α} (ha : ∀ x, Ends options m (a x) P E) : Ends options m (build f >>= a) P E :=
  (Goes.made f).ends fun x _ => ha x

lemma record {e : Export} {f : Unit → Step Unit} (hf : Ends options m (f ()) P E) :
    Ends options m (recordExport e >>= f) P E :=
  (Goes.record e).ends fun _ _ => hf

lemma pure (h : P) : Ends options m (pure ()) P E := fun c _ => .inl ⟨c, rfl, h⟩

lemma throw {fault : Fault} (h : E fault) : Ends options m (throw fault) P E :=
  fun c _ => .inr ⟨fault, c, rfl, h⟩

lemma replaceBy {t : Tree} (ht : t.isNode = true) (h : P) : Ends options m (replaceBy t) P E := by
  obtain ⟨n, rfl⟩ := isNode_iff.1 ht
  intro c hc
  obtain ⟨s, hs, -⟩ := replaceBy_of_placed hc.placed n
  exact .inl ⟨_, hs, h⟩

lemma placed {f : Fresh Tree} (hf : ∀ k, (f k).1.isNode = true) (h : P) :
    Ends options m (build f >>= Visit.replaceBy) P E :=
  (Goes.node hf).ends fun _ ht => replaceBy ht h

lemma ite {p : Prop} [Decidable p] {a b : Step Unit} (ha : p → Ends options m a P E)
    (hb : ¬p → Ends options m b P E) : Ends options m (if p then a else b) P E := by
  split
  · exact ha ‹_›
  · exact hb ‹_›

end Ends

section Operators

lemma ends_overloading {rule : Step Unit} (h : Ends options m rule True E) :
    Ends options m (overloading rule) True E :=
  Goes.getState.ends fun _ _ => .ite (fun _ => h) fun _ => .pure trivial

lemma among_text (s : String) (names : List String) :
    (str s).among names = .ok (names.contains s) := rfl

lemma goes_binaryCall (left token right : Tree) :
    Goes options m (binaryCall left token right) (·.isNode = true) E := by
  refine (Goes.use _).bind fun _ _ => ?_
  refine (Goes.made _).bind fun _ _ => ?_
  exact .node fun _ => rfl

lemma ends_unaryRule (hf : Filled m) (hk : m.is "UnaryExpression" = true) :
    Ends options m unaryRule True E := by
  obtain ⟨token, hop, -⟩ := fits_text (hf ⟨.unaryExpression, "operator", .text⟩ (by decide) hk)
  obtain ⟨argument, ha⟩ := fits_node (hf ⟨.unaryExpression, "argument", .node⟩ (by decide) hk)
  refine ends_overloading (.attr hop ?_)
  refine .lift (among_text token _) (.ite (fun _ => ?_) fun _ => .pure trivial)
  refine (Goes.use _).ends fun _ _ => ?_
  refine .made fun _ => ?_
  refine .attr ha ?_
  exact .placed (fun _ => rfl) trivial

lemma ends_binaryRule {token : String} {left right : Tree} (hop : m.get? "operator" = some (.str token))
    (hl : m.get? "left" = some left) (hr : m.get? "right" = some right) :
    Ends options m binaryRule True E := by
  refine ends_overloading (.attr hop ?_)
  refine .lift (among_text token _) (.ite (fun _ => ?_) fun _ => .pure trivial)
  refine .attr hl (.attr hr ?_)
  exact (goes_binaryCall _ _ _).ends fun _ ht => .replaceBy ht trivial

variable {target name : Tree} (hname : target.attr "name" = .ok name)
include hname

lemma goes_assignment (token value : Tree) :
    Goes options m (assignment target token value) (·.isNode = true) E := by
  refine (Goes.lift hname).bind fun _ _ => ?_
  refine (Goes.made _).bind fun _ _ => ?_
  refine (goes_binaryCall _ _ _).bind fun _ _ => ?_
  exact .node fun _ => rfl

omit hname in
lemma goes_calledAtOnce (body : List Tree) (isAsync : Bool) :
    Goes options m (calledAtOnce body isAsync) (·.isNode = true) E := by
  refine (Goes.made _).bind fun _ _ => ?_
  refine (Goes.node fun _ => rfl).bind fun call hcall => ?_
  cases isAsync with
  | true => exact .node fun _ => rfl
  | false => exact .pure hcall

lemma goes_assignThenReturn (token : Tree) {value : Tree}
    (hv : ∀ kind, ∃ b, value.contains kind = .ok b) :
    Goes options m (assignThenReturn target token value) (·.isNode = true) E := by
  obtain ⟨yields, hy⟩ := hv "YieldExpression"
  obtain ⟨awaits, ha⟩ := hv "AwaitExpression"
  refine (goes_assignment hname token value).bind fun assigned hassigned => ?_
  refine (Goes.lift hy).bind fun b _ => ?_
  cases b with
  | true => exact .pure hassigned
  | false =>
    refine (Goes.lift hname).bind fun _ _ => (Goes.lift ha).bind fun _ _ => ?_
    exact (Goes.made _).bind fun _ _ => goes_calledAtOnce _ _

lemma goes_returnThenAssign (token : Tree) :
    Goes options m (returnThenAssign target token) (·.isNode = true) E := by
  refine (Goes.made _).bind fun _ _ => ?_
  refine (goes_assignment hname token _).bind fun _ _ => ?_
  refine (Goes.lift hname).bind fun _ _ => ?_
  exact (Goes.made _).bind fun _ _ => goes_calledAtOnce _ _

omit hname

lemma done_field (hd : ∀ s ∈ slots m, Done options s.child) (K : Kind) (hk : m.is K.name = true)
    {key : String} (hkey : key ∈ K.children) {x : Node} (hx : m.get? key = some x.toTree) :
    Done options x := by
  have hparts := parts_of_kind (P := Done options) K hk hkey hd
  rw [Node.get, hx] at hparts
  exact parts_toTree.1 hparts

lemma Done.contains {x : Node} (h : Done options x) (kind : String) :
    ∃ b, x.toTree.contains kind = .ok b := by
  refine contains_eq_ok (fun k hb => ?_) kind
  obtain ⟨keys, hkeys, -, htype⟩ := (h k hb).keys
  exact ⟨keys, hkeys, htype⟩

lemma Done.ownName {x : Node} (h : Done options x) (hx : (x.kind.isText "Identifier") = true) :
    ∃ name, x.toTree.attr "name" = .ok name := by
  obtain ⟨name, hname⟩ := h.rests.formed.name hx
  exact ⟨_, attr_eq_ok.2 hname⟩

lemma goes_one : Goes options m (build (Build.literal (.num (.int 1))))
    (fun t => ∀ kind, ∃ b, t.contains kind = .ok b) E := by
  refine .build fun k => ?_
  have hdone : Done options ⟨k, .str "Literal", [("value", .num (.int 1))]⟩ :=
    parts_toTree.1 ((builds_done k).grows.literal ((builds_done k).grows.num _) (Nat.le_refl k))
  exact hdone.contains

lemma ends_updateRule (hf : Filled m) (hk : m.is "UpdateExpression" = true)
    (hd : ∀ s ∈ slots m, Done options s.child) : Ends options m updateRule True E := by
  obtain ⟨text, hop, hne⟩ := fits_text (hf ⟨.updateExpression, "operator", .text⟩ (by decide) hk)
  obtain ⟨x, hx⟩ := fits_node (hf ⟨.updateExpression, "argument", .node⟩ (by decide) hk)
  obtain ⟨isBefore, hb⟩ := fits_value (hf ⟨.updateExpression, "prefix", .value⟩ (by decide) hk)
  obtain ⟨token, htoken⟩ : ∃ token, (str text).index 0 = .ok (.str token) := by
    cases hchars : text.toList with
    | nil => exact absurd (String.toList_eq_nil_iff.1 hchars) hne
    | cons char rest =>
      exact ⟨String.singleton char, by simp [index, hchars, at?, ofChar]⟩
  have hdone := done_field hd .updateExpression hk (by decide) hx
  refine ends_overloading (.attr hop ?_)
  refine .lift htoken ?_
  refine .lift (among_text token _) (.ite (fun _ => ?_) fun _ => .pure trivial)
  refine .attr hx ?_
  refine .lift (show x.toTree.kind = .ok x.kind from rfl) ?_
  refine .ite (fun hi => ?_) fun _ => .pure trivial
  obtain ⟨name, hname⟩ := hdone.ownName hi
  refine (Goes.attr hb).ends fun _ _ => .ite (fun _ => ?_) fun _ => ?_
  · refine goes_one.ends fun value hv => ?_
    exact (goes_assignThenReturn hname _ hv).ends fun _ ht => .replaceBy ht trivial
  · exact (goes_returnThenAssign hname _).ends fun _ ht => .replaceBy ht trivial

lemma ends_assignmentRule (hf : Filled m) (hk : m.is "AssignmentExpression" = true)
    (hd : ∀ s ∈ slots m, Done options s.child) : Ends options m assignmentRule True E := by
  obtain ⟨text, hop, -⟩ :=
    fits_text (hf ⟨.assignmentExpression, "operator", .text⟩ (by decide) hk)
  obtain ⟨x, hx⟩ := fits_node (hf ⟨.assignmentExpression, "left", .node⟩ (by decide) hk)
  obtain ⟨v, hv⟩ := fits_node (hf ⟨.assignmentExpression, "right", .node⟩ (by decide) hk)
  have hdx := done_field hd .assignmentExpression hk (by decide) hx
  have hdv := done_field hd .assignmentExpression hk (by decide) hv
  refine ends_overloading (.attr hop ?_)
  refine .ite (fun _ => .pure trivial) fun _ => ?_
  refine .lift (show (str text).initial = .ok (.str _) from rfl) ?_
  refine .lift (among_text _ _) (.ite (fun _ => ?_) fun _ => .pure trivial)
  refine .attr hx ?_
  refine .lift (show x.toTree.kind = .ok x.kind from rfl) ?_
  refine .ite (fun hi => ?_) fun _ => .pure trivial
  obtain ⟨name, hname⟩ := hdx.ownName hi
  refine .attr hv ?_
  exact (goes_assignThenReturn hname _ hdv.contains).ends fun _ ht => .replaceBy ht trivial

end Operators

section General

lemma ends_noteAwait : Ends options m noteAwait True E := fun _ _ => .inl ⟨_, rfl, trivial⟩

lemma ends_forOfRule : Ends options m forOfRule True E :=
  Goes.getNode.ends fun _ _ => .ite (fun _ => ends_noteAwait) fun _ => .pure trivial

lemma ends_identifierRule {name : String} (h : m.get? "name" = some (.str name)) :
    Ends options m identifierRule True E := by
  refine .attr h ?_
  refine Goes.getState.ends fun s _ => ?_
  refine (Goes.lift (show s.identify (.str name) = .ok _ from rfl)).ends fun s _ => ?_
  exact fun _ _ => .inl ⟨_, rfl, trivial⟩

lemma goes_requireExports
    (h : options.returnsExports = false → E (.exportsDisallowed options.returns)) :
    Goes options m requireExports (fun _ => options.returnsExports = true) E := by
  refine Goes.getState.bind ?_
  rintro s rfl
  by_cases hr : s.options.returnsExports = true
  · rw [if_pos hr]
    exact .pure hr
  · rw [if_neg hr]
    exact .throw (h (by simpa using hr))

lemma goes_importCall (source : Node)
    (h : options.importer = none → ∀ value, E (.importerMissing value)) :
    Goes options m (importCall source.toTree) (fun _ => options.importer ≠ none) E := by
  rw [importCall_eq]
  refine Goes.getState.bind ?_
  rintro s rfl
  by_cases hi : s.options.importer.isNone = true
  · rw [if_pos hi]
    refine (Goes.lift (show source.toTree.get "value" = .ok _ from rfl)).bind fun value _ => ?_
    exact .throw (h (Option.isNone_iff_eq_none.1 hi) value)
  · rw [if_neg hi]
    have hsome : s.options.importer ≠ none := fun hnone => hi (Option.isNone_iff_eq_none.2 hnone)
    refine (Goes.use _).bind fun _ _ => (Goes.made _).bind fun _ _ => (Goes.made _).bind fun _ _ => ?_
    refine Goes.getState.bind fun s _ => ?_
    cases s.importIsAsync with
    | true => exact .build fun _ => hsome
    | false => exact .pure hsome

end General

end Overload.Lowering
