import Overload.Proofs.Lowering.Containment
import Overload.Proofs.Semantics.Depiction
import Overload.Proofs.Semantics.Equations

/-!
Lowering an operator expression keeps its meaning: what the interpreter makes of the lowered tree is
what the expression means, for every memory and whatever the members of values do.
-/

namespace Overload.Semantics

open Visit Entries Term List
open Lowering (State Extends Mentioned builtinRules siteAt pauses Lacks)
open Syntax (Field)

variable {name kind : String} {op : BinaryOp}

def Quiet (t : Tree) : Prop := ∀ kind ∈ pauses, Lacks kind t

structure Fits (h : Helpers) (s : State) (n : Node) : Prop where
  unary : ∀ name, s.unaryFn = some name → h.unary = some name
  binary : ∀ name, s.binaryFn = some name → h.binary = some name
  apart : ∀ name, h.unary = some name → h.binary ≠ some name
  free : ∀ name, Mentioned n name → h.has name = false

lemma Fits.child {h : Helpers} {p q : Progress State} {n : Node} (hf : Fits h q.state n)
    (he : Extends p q) {s : Visit.Slot} (hs : s ∈ slots n) : Fits h p.state s.child where
  unary name hn := hf.unary name (he.unaryFn name hn)
  binary name hn := hf.binary name (he.binaryFn name hn)
  apart := hf.apart
  free name hm := by
    obtain ⟨m, hb, hm⟩ := hm
    exact hf.free name ⟨m, .head hs hb, hm⟩

structure Lowered (e : Term) (n : Node) (t : Tree) (s : State) : Prop where
  quiet : Quiet t
  evaluate : ∀ invoke h, Fits h s n → evaluate invoke h t = e.eval invoke
  target : ∀ name, e = .ident name → Variable name t

def Simulated (n : Node) (p : Progress State) (m : Node) (q : Progress State) : Prop :=
  Extends p q ∧ ∀ e, Depicts e n.toTree → Lowered e n m.toTree q.state

lemma carries_simulated : Carries Simulated Extends := ⟨Extends.refl, Extends.trans, And.left⟩

section Children

variable {n m : Node} {p q : Progress State} {k : Kind} {key : String}

lemma lowered_field (hr : Renewed Simulated n p m q) (hk : n.kind = .str k.name)
    (hkey : key ∈ k.children) {e : Term} (hc : Field key (Depicts e) n) :
    ∃ d : Node, m.get? key = some d.toTree ∧ Quiet d.toTree ∧
      (∀ name, e = .ident name → Variable name d.toTree) ∧
      ∀ r, Extends q r → ∀ invoke h, Fits h r.state n → evaluate invoke h d.toTree = e.eval invoke := by
  obtain ⟨c, hc, he⟩ := depicts_field hc
  have hkeys := childKeys_of_kind k hk
  obtain ⟨d, a, b, hd, hP, -, hb⟩ := hr.field carries_simulated hkeys hkey hc
  have hl := hP.2 e he
  refine ⟨d, hd, hl.quiet, hl.target, fun r hqr invoke h hf => hl.evaluate invoke h ?_⟩
  exact hf.child (hb.trans hqr) (slot_of_get? hkeys hkey hc)

lemma get?_other (hr : Renewed Simulated n p m q) (hk : n.kind = .str k.name)
    (hkey : key ∉ k.children) {t : Tree} (ht : n.get? key = some t) : m.get? key = some t :=
  (hr.get? (childKeys_of_kind k hk) hkey).trans ht

end Children

lemma Lowered.landed {e : Term} {n new : Node} {s : State} (h : Lowered e n new.toTree s)
    (parent : Option Node) (old : Node) : Lowered e n (landed parent old new).toTree s := by
  cases parent with
  | none =>
    refine ⟨h.quiet, h.evaluate, fun name hn => ?_⟩
    exact ofKind_toTree.2 (ofKind_toTree.1 (h.target name hn) : _)
  | some _ => exact h

def Finishes (e : Term) (n m : Node) (place : Place) (q : Progress State) : Prop :=
  (finish builtinRules place m q).outcome = .ok () ∧
    Lowered e n (finish builtinRules place m q).node.toTree
      (finish builtinRules place m q).progress.state

section Step

variable {e : Term} {n m : Node} {p q : Progress State} {place : Place}

lemma finishes_of_none (hk : m.kind = .str kind) (hr : get? kind builtinRules = none)
    (hl : Lowered e n m.toTree q.state) : Finishes e n m place q := by
  rw [Finishes, Lowering.finish_of_none hk hr]
  exact ⟨rfl, hl⟩

lemma finishes_of_replaceBy {kind : String} {rule : Lowering.Step Unit} {t : Tree} {next : Nat}
    {s : State} (hk : m.kind = .str kind) (hr : get? kind builtinRules = some [rule])
    (hp : (siteAt place m).Placed)
    (heq : rule ⟨siteAt place m, q.next, q.notes, q.state⟩ =
      replaceBy t ⟨siteAt place m, next, q.notes, s⟩)
    (ht : t.isNode = true) (hl : Extends q ⟨next, q.notes, s⟩ → Lowered e n t s) :
    Finishes e n m place q := by
  obtain ⟨new, hnew⟩ := Option.isSome_iff_exists.1 ht
  obtain rfl := Tree.toTree_of_node? hnew
  obtain ⟨site, hdone, hnode⟩ := replaceBy_of_placed
    (c := ⟨siteAt place m, next, q.notes, s⟩) hp new
  have hfinish : finish builtinRules place m q =
      ⟨.ok (), landed place.parent m new, ⟨next, q.notes, s⟩⟩ := by
    rw [Lowering.finish_of_rule hk hr, heq, hdone]
    simp only [hnode]
    rfl
  have hext : Extends q (finish builtinRules place m q).progress := .finish (by rw [hfinish])
  rw [hfinish] at hext
  rw [Finishes, hfinish]
  exact ⟨rfl, (hl hext).landed _ _⟩

lemma unary_token_mem (op : UnaryOp) : op.token ∈ Lowering.unaryTokens := by
  cases op <;> decide

lemma binary_token_mem (op : BinaryOp) : op.token ∈ Lowering.binaryTokens := by
  cases op <;> decide

lemma finishes_unary {op : UnaryOp} {e : Term} (hr : Renewed Simulated n p m q)
    (ho : q.state.options.overloading = true) (hp : (siteAt place m).Placed)
    (h : Depicts (.unary op e) n.toTree) : Finishes (.unary op e) n m place q := by
  obtain ⟨hk, ⟨t, ht, rfl⟩, harg⟩ := ofKind_toTree.1 h
  obtain ⟨d, hd, hquiet, -, heval⟩ := lowered_field hr hk (by decide) harg
  refine finishes_of_replaceBy (hr.kind.trans hk) rfl hp
    (Lowering.unaryRule_eq (c := ⟨siteAt place m, q.next, q.notes, q.state⟩) ho
      (get?_other hr hk (by decide) ht) (unary_token_mem op) hd) rfl fun hext => ?_
  refine ⟨fun _ hkind => Lowering.lacks_unaryCall hkind (hquiet _ hkind) .., fun invoke h hf => ?_, by simp⟩
  have hu := hf.unary _ q.state.unaryFn_useUnary
  rw [eval, ← heval _ hext invoke h hf]
  exact evaluate_unaryCall hu ..

lemma finishes_binary {l r : Term} (hr : Renewed Simulated n p m q)
    (ho : q.state.options.overloading = true) (hp : (siteAt place m).Placed)
    (h : Depicts (.binary op l r) n.toTree) : Finishes (.binary op l r) n m place q := by
  obtain ⟨kind, hmem, h⟩ := h
  obtain ⟨hk, ⟨t, ht, rfl⟩, hleft, hright⟩ := ofKind_toTree.1 h
  have hkind : kind.children = ["left", "right"] ∧
      get? kind.name builtinRules = some [Lowering.binaryRule] := by
    simp only [mem_cons, not_mem_nil, or_false] at hmem
    rcases hmem with rfl | rfl <;> exact ⟨rfl, rfl⟩
  obtain ⟨a, ha, hqa, -, hea⟩ := lowered_field hr hk (by simp [hkind]) hleft
  obtain ⟨b, hb, hqb, -, heb⟩ := lowered_field hr hk (by simp [hkind]) hright
  refine finishes_of_replaceBy (hr.kind.trans hk) hkind.2 hp
    (Lowering.binaryRule_eq (c := ⟨siteAt place m, q.next, q.notes, q.state⟩) ho
      (get?_other hr hk (by simp [hkind]) ht) (binary_token_mem op) ha hb) rfl fun hext => ?_
  refine ⟨fun _ hkind => Lowering.lacks_dispatchCall hkind (hqa _ hkind) (hqb _ hkind) ..,
    fun invoke h hf => ?_, by simp⟩
  have hbin := hf.binary _ q.state.binaryFn_useBinary
  rw [eval, ← hea _ hext invoke h hf, ← heb _ hext invoke h hf]
  exact evaluate_dispatchCall hbin (fun hu => hf.apart _ hu hbin) ..

lemma target_field {k : Kind} {key : String} (hr : Renewed Simulated n p m q)
    (hk : n.kind = .str k.name) (hkey : key ∈ k.children) (hc : Field key (Variable name) n) :
    ∃ d : Node, m.get? key = some d.toTree ∧ d.kind = .str "Identifier" ∧
      d.get? "name" = some (.str name) ∧ ∀ s h, Fits h s n → h.has name = false := by
  obtain ⟨d, hd, -, htarget, -⟩ := lowered_field (e := .ident name) hr hk hkey hc
  obtain ⟨hdk, t, ht, rfl⟩ := ofKind_toTree.1 (htarget name rfl)
  refine ⟨d, hd, hdk, ht, fun s h hf => hf.free name ?_⟩
  obtain ⟨c, hget, hc⟩ := depicts_field (e := .ident name) hc
  obtain ⟨hck, t, ht, rfl⟩ := ofKind_toTree.1 hc
  have hs := slot_of_get? (childKeys_of_kind k hk) hkey hget
  exact ⟨c, .child .refl hs, Node.is_iff.2 hck, ht⟩

lemma finishes_assignThenReturn {kind : String} {rule : Lowering.Step Unit} {d : Node}
    {name : String} {op : BinaryOp} {value : Tree} {j : Nat} (hk : m.kind = .str kind)
    (hr : get? kind builtinRules = some [rule]) (hp : (siteAt place m).Placed)
    (hd : d.get? "name" = some (.str name)) (hv : Quiet value)
    (heq : rule ⟨siteAt place m, q.next, q.notes, q.state⟩ =
      (Lowering.assignThenReturn d.toTree (.str op.token) value >>= replaceBy)
        ⟨siteAt place m, j, q.notes, q.state⟩)
    (hname : ∀ s h, Fits h s n → h.has name = false) (he : ∀ x, e ≠ .ident x)
    (heval : ∀ r, Extends q r → ∀ invoke h, Fits h r.state n →
      (do return (← modify invoke op name (evaluate invoke h value)).2) = e.eval invoke) :
    Finishes e n m place q := by
  have hattr : d.toTree.attr "name" = .ok (.str name) := attr_eq_ok.2 hd
  rw [bind_def, Lowering.assignThenReturn_eq _ hattr (hv _ (by decide)) (hv _ (by decide))] at heq
  refine finishes_of_replaceBy hk hr hp heq rfl fun hext => ?_
  refine ⟨fun _ hkind => Lowering.lacks_atOnce hkind .., fun invoke h hf => ?_,
    fun x hx => absurd hx (he x)⟩
  have hbin := hf.binary _ q.state.binaryFn_useBinary
  rw [← heval _ hext invoke h hf]
  exact evaluate_returnLast hbin (fun hu => hf.apart _ hu hbin) (hname _ h hf) ..

lemma finishes_returnThenAssign {kind : String} {rule : Lowering.Step Unit} {d : Node}
    {name : String} {op : BinaryOp} (hk : m.kind = .str kind)
    (hr : get? kind builtinRules = some [rule]) (hp : (siteAt place m).Placed)
    (hd : d.get? "name" = some (.str name))
    (heq : rule ⟨siteAt place m, q.next, q.notes, q.state⟩ =
      (Lowering.returnThenAssign d.toTree (.str op.token) >>= replaceBy)
        ⟨siteAt place m, q.next, q.notes, q.state⟩)
    (hname : ∀ s h, Fits h s n → h.has name = false) (he : ∀ x, e ≠ .ident x)
    (heval : ∀ invoke, (do return (← modify invoke op name (pure (.num (.int 1)))).1) =
      e.eval invoke) : Finishes e n m place q := by
  have hattr : d.toTree.attr "name" = .ok (.str name) := attr_eq_ok.2 hd
  rw [bind_def, Lowering.returnThenAssign_eq _ hattr] at heq
  refine finishes_of_replaceBy hk hr hp heq rfl fun hext => ?_
  refine ⟨fun _ hkind => Lowering.lacks_atOnce hkind .., fun invoke h hf => ?_,
    fun x hx => absurd hx (he x)⟩
  have hbin := hf.binary _ q.state.binaryFn_useBinary
  rw [← heval invoke]
  exact evaluate_returnFirst hbin (fun hu => hf.apart _ hu hbin) (hname _ h hf) ..

lemma token_of_update (op : Syntax.UpdateOp) :
    (Tree.str op.token).index 0 = .ok (.str (step op).token) := by
  cases op <;> rfl

lemma finishes_update {op : Syntax.UpdateOp} {isBefore : Bool} (hr : Renewed Simulated n p m q)
    (ho : q.state.options.overloading = true) (hp : (siteAt place m).Placed)
    (h : Depicts (.update op isBefore name) n.toTree) :
    Finishes (.update op isBefore name) n m place q := by
  obtain ⟨hk, ⟨t, ht, rfl⟩, ⟨b, hb, rfl⟩, harg⟩ := ofKind_toTree.1 h
  obtain ⟨d, hd, hdk, hdn, hname⟩ := target_field hr hk (by decide) harg
  have hkind : d.toTree.kind = .ok (.str "Identifier") := congrArg Except.ok hdk
  have heq := Lowering.updateRule_eq (c := ⟨siteAt place m, q.next, q.notes, q.state⟩) ho
    (get?_other hr hk (by decide) ht) (token_of_update op)
    (congrArg Except.ok (contains_iff_mem.2 (binary_token_mem _))) hd hkind
    (get?_other hr hk (by decide) hb)
  cases hbefore : b.truthy with
  | true =>
    rw [if_pos hbefore] at heq
    refine finishes_assignThenReturn (hr.kind.trans hk) rfl hp hdn
      (fun _ hkind => Lowering.lacks_literal hkind _ _) heq hname
      (by simp) fun _ _ invoke h _ => ?_
    rw [evaluate_builtLiteral]
    rfl
  | false =>
    rw [if_neg (by simp [hbefore])] at heq
    exact finishes_returnThenAssign (hr.kind.trans hk) rfl hp hdn heq hname (by simp) fun _ => rfl

lemma initial_assignToken (op : BinaryOp) :
    (Tree.str (Syntax.assignToken (some op))).initial = .ok (.str op.token) := by
  cases op <;> rfl

lemma isText_assignToken (op : BinaryOp) :
    (Tree.str (Syntax.assignToken (some op))).isText "=" = false := by
  cases op <;> rfl

lemma finishes_compound {e : Term} (hr : Renewed Simulated n p m q)
    (ho : q.state.options.overloading = true) (hp : (siteAt place m).Placed)
    (h : Depicts (.assign (some op) name e) n.toTree) :
    Finishes (.assign (some op) name e) n m place q := by
  obtain ⟨hk, ⟨t, ht, rfl⟩, hleft, hright⟩ := ofKind_toTree.1 h
  obtain ⟨d, hd, hdk, hdn, hname⟩ := target_field hr hk (by decide) hleft
  obtain ⟨v, hv, hqv, -, heval⟩ := lowered_field hr hk (by decide) hright
  have hkind : d.toTree.kind = .ok (.str "Identifier") := congrArg Except.ok hdk
  have heq := Lowering.assignmentRule_eq (c := ⟨siteAt place m, q.next, q.notes, q.state⟩) ho
    (get?_other hr hk (by decide) ht) (isText_assignToken op) (initial_assignToken op)
    (congrArg Except.ok (contains_iff_mem.2 (binary_token_mem _))) hd hkind hv
  refine finishes_assignThenReturn (hr.kind.trans hk) rfl hp hdn hqv heq hname (by simp)
    fun r hext invoke h hf => ?_
  rw [eval, heval r hext invoke h hf]

lemma quiet_renewed {k : Kind} (hr : Renewed Simulated n p m q) (he : Depicts e n.toTree)
    (hk : n.kind = .str k.name)
    (hf : k.name ∉ pauses ++ Tree.functionKinds) : Quiet m.toTree := by
  refine fun kind hkind => Lowering.lacks_of_slots hkind k (hr.kind.trans hk) hf fun t ht => ?_
  obtain ⟨s, hs, -, a, b, hP, -⟩ := hr.slot_of_mem carries_simulated ht
  obtain ⟨e', he'⟩ := Depicted.child ⟨e, he⟩ hs
  exact (hP.2 e' he').quiet kind hkind

lemma finishes_plain {e : Term} (hr : Renewed Simulated n p m q)
    (ho : q.state.options.overloading = true) (h : Depicts (.assign none name e) n.toTree) :
    Finishes (.assign none name e) n m place q := by
  obtain ⟨hk, ⟨t, ht, rfl⟩, hleft, hright⟩ := ofKind_toTree.1 h
  obtain ⟨d, hd, hdk, hdn, hname⟩ := target_field hr hk (by decide) hleft
  obtain ⟨v, hv, -, -, heval⟩ := lowered_field hr hk (by decide) hright
  have hop := get?_other hr hk (by decide) ht
  rw [Finishes, Lowering.finish_of_rule (hr.kind.trans hk) rfl,
    Lowering.assignmentRule_plain (c := ⟨siteAt place m, q.next, q.notes, q.state⟩) ho hop]
  refine ⟨rfl, quiet_renewed hr h hk (by decide), fun invoke h hf => ?_, by simp⟩
  rw [eval, ← heval q (.refl q) invoke h hf]
  exact evaluate_assignment (hr.kind.trans hk) hop hd hv (variableName_eq hdk hdn (hname _ h hf))

lemma finishes_conditional {c a b : Term} (hr : Renewed Simulated n p m q)
    (h : Depicts (.conditional c a b) n.toTree) : Finishes (.conditional c a b) n m place q := by
  obtain ⟨hk, htest, hthen, helse⟩ := ofKind_toTree.1 h
  obtain ⟨x, hx, -, -, hex⟩ := lowered_field hr hk (by decide) htest
  obtain ⟨y, hy, -, -, hey⟩ := lowered_field hr hk (by decide) hthen
  obtain ⟨z, hz, -, -, hez⟩ := lowered_field hr hk (by decide) helse
  refine finishes_of_none (hr.kind.trans hk) rfl ⟨quiet_renewed hr h hk (by decide), ?_, by simp⟩
  intro invoke h hf
  rw [eval, evaluate_conditional (hr.kind.trans hk) hx hy hz, hex q (.refl q) invoke h hf,
    hey q (.refl q) invoke h hf, hez q (.refl q) invoke h hf]

lemma evalAll_eq (invoke : Invoke) (es : List Term) : evalAll invoke es = es.map (·.eval invoke) := by
  induction es with
  | nil => rfl
  | cons e es ih => rw [evalAll, ih, map_cons]

lemma finishes_sequence {es : List Term} (hr : Renewed Simulated n p m q)
    (h : Depicts (.sequence es) n.toTree) : Finishes (.sequence es) n m place q := by
  obtain ⟨hk, t, ht, ts, rfl, hts⟩ := ofKind_toTree.1 h
  obtain ⟨cs, rfl, hcs⟩ := DepictsAll.nodes hts
  have hkeys := childKeys_of_kind .sequenceExpression hk
  have hkey : "expressions" ∈ Kind.sequenceExpression.children := by decide
  obtain ⟨ds, hds, hall⟩ := hr.list carries_simulated hkeys hkey ht
  refine finishes_of_none (hr.kind.trans hk) rfl ⟨quiet_renewed hr h hk (by decide), ?_, by simp⟩
  intro invoke h hf
  rw [eval, evaluate_sequence (hr.kind.trans hk) hds, evalAll_eq, map_map]
  congr 1
  refine ext_getElem (by rw [length_map, length_map, hcs.length_eq, hall.length_eq])
    fun i hi hi' => ?_
  rw [getElem_map, getElem_map]
  rw [length_map] at hi hi'
  have hc : i < cs.length := hall.length_eq ▸ hi
  obtain ⟨a, b, hP, -, hb⟩ := (forall₂_iff_get.1 hall).2 i hc hi
  have hitem : (cs.map Node.toTree)[i]? = some (cs.get ⟨i, hc⟩).toTree := by simp [hc]
  have hs := slot_of_item hkeys hkey ht hitem
  exact (hP.2 _ ((forall₂_iff_get.1 hcs).2 i hi' hc)).evaluate invoke h (hf.child hb hs)

lemma finishes_literal {v : Tree} (hr : Renewed Simulated n p m q)
    (h : Depicts (.literal v) n.toTree) : Finishes (.literal v) n m place q := by
  obtain ⟨hk, t, ht, rfl⟩ := ofKind_toTree.1 h
  refine finishes_of_none (hr.kind.trans hk) rfl ⟨quiet_renewed hr h hk (by decide), ?_, by simp⟩
  intro invoke h hf
  exact evaluate_literal (hr.kind.trans hk) (get?_other hr hk (by decide) ht)

lemma finishes_ident (hr : Renewed Simulated n p m q) (h : Depicts (.ident name) n.toTree) :
    Finishes (.ident name) n m place q := by
  obtain ⟨hk, t, ht, rfl⟩ := ofKind_toTree.1 h
  have hname := get?_other hr hk (by decide) ht
  have heq : Lowering.identifierRule ⟨siteAt place m, q.next, q.notes, q.state⟩ =
      (.ok (), ⟨siteAt place m, q.next, q.notes, { q.state with
        identifiers := Tree.insertKey q.state.identifiers (.str name) }⟩) := by
    rw [Lowering.identifierRule_eq]
    have hattr : (siteAt place m).node.attr "name" = .ok (.str name) := attr_eq_ok.2 hname
    simp only [hattr]
    rfl
  rw [Finishes, Lowering.finish_of_rule (hr.kind.trans hk) rfl, heq]
  refine ⟨rfl, quiet_renewed hr h hk (by decide), fun invoke h hf => ?_, fun x hx => ?_⟩
  · refine evaluate_identifier (hr.kind.trans hk) hname (hf.free name ?_)
    exact ⟨n, .refl, Node.is_iff.2 hk, ht⟩
  · obtain rfl := ident.inj hx
    exact ofKind_toTree.2 ⟨hr.kind.trans hk, _, hname, rfl⟩

lemma finishes (hr : Renewed Simulated n p m q) (ho : q.state.options.overloading = true)
    (hp : (siteAt place m).Placed) (h : Depicts e n.toTree) : Finishes e n m place q := by
  cases e with
  | literal v => exact finishes_literal hr h
  | ident name => exact finishes_ident hr h
  | unary op e => exact finishes_unary hr ho hp h
  | binary op l r => exact finishes_binary hr ho hp h
  | update op isBefore name => exact finishes_update hr ho hp h
  | assign op name e =>
    cases op with
    | none => exact finishes_plain hr ho h
    | some op => exact finishes_compound hr ho hp h
  | conditional c a b => exact finishes_conditional hr h
  | sequence es => exact finishes_sequence hr h

end Step

lemma simulated_visit {n : Node} (hn : Depicted n) {place : Place} {p : Progress State}
    (hp : (siteAt place n).Placed) (ho : p.state.options.overloading = true) :
    (visit builtinRules n place p).outcome = .ok () ∧
      Simulated n p (visit builtinRules n place p).node
        (visit builtinRules n place p).progress := by
  induction hs : n.toTree.size using Nat.strongRecOn generalizing n place p with
  | ind size ih =>
    obtain ⟨keys, hk, hnodup, htype⟩ := hn.childKeys
    obtain ⟨m, q, hr, hq, hv⟩ := renewed_of_visits (P := Simulated)
      (I := fun p => p.state.options.overloading = true) hk hnodup htype ho fun s hmem m p hm ho => by
        have hlt : s.child.toTree.size < size := by
          rw [slots_of_childKeys hk] at hmem
          exact hs ▸ size_child_lt hmem
        have hplaced : (siteAt ⟨some m, s.key, s.index⟩ s.child).Placed := by
          rintro _ ⟨⟩
          exact holds_of_mem_fieldSlots hm
        obtain ⟨hok, hsim⟩ := ih _ hlt (hn.child hmem) hplaced ho rfl
        exact ⟨hok, hsim.1.options ▸ ho, hsim⟩
    have hpm : (siteAt place m).Placed := fun parent hparent => hr.id ▸ hp parent hparent
    obtain ⟨e, he⟩ := hn
    have hok := (finishes hr hq hpm he).1
    rw [hv place]
    exact ⟨hok, (hr.progress carries_simulated).trans (.finish hok),
      fun e he => (finishes hr hq hpm he).2⟩

lemma fits_of_hygienic {source made : List String} {s : State} {n : Node}
    (h : Lowering.Hygienic source s made) (hn : ∀ name, Mentioned n name → name ∈ source) :
    Fits ⟨s.unaryFn, s.binaryFn⟩ s n where
  unary _ := id
  binary _ := id
  apart name hu hb := by
    have := h.helpers_nodup
    simp only at hu hb
    simp [Lowering.State.helpers, hu, hb] at this
  free name hm := by
    have hhas (o : Option String) (ho : ∀ x ∈ o.toList, x ∈ s.helpers) : (o == some name) = false := by
      cases o with
      | none => rfl
      | some x =>
        have hx : x ≠ name := fun hx =>
          h.free x (h.helpers_made x (ho x (by simp))) (hx ▸ hn name hm)
        simpa using hx
    simp only [Helpers.has, Bool.or_eq_false_iff]
    exact ⟨hhas _ fun x hx => by simp [Lowering.State.helpers, Option.mem_toList.1 hx],
      hhas _ fun x hx => by simp [Lowering.State.helpers, Option.mem_toList.1 hx]⟩

/-- Lowering an operator expression succeeds, and under the names that the helpers got the lowered
tree gives the same value or the same fault as the expression and leaves the same memory. -/
theorem lowering_preserves_meaning (e : Term) (root : Node) (hroot : Depicts e root.toTree)
    (options : Options) (ho : options.overloading = true) (hc : options.customRules = [])
    (next : Nat) :
    ∃ s, (Lowering.run options root.toTree next).outcome = .ok s ∧
      ∀ invoke m, evaluate invoke ⟨s.unaryFn, s.binaryFn⟩
        (Lowering.run options root.toTree next).tree m = e.eval invoke m := by
  have hn : Depicted root := ⟨e, hroot⟩
  obtain ⟨s, hs⟩ := hn.ofTree options
  have hplaced : (siteAt ⟨none, "", none⟩ root).Placed := by
    rintro _ ⟨⟩
  obtain ⟨hok, hsim⟩ := simulated_visit hn (p := ⟨next, [], s⟩) hplaced
    ((Lowering.ofTree_eq_ok hs).1 ▸ ho)
  have hrun := Lowering.run_eq hc hn.lawful hs next
  have hout : (Lowering.run options root.toTree next).outcome =
      .ok (visit builtinRules root ⟨none, "", none⟩ ⟨next, [], s⟩).progress.state := by
    simp [hrun, hok, Except.map]
  refine ⟨_, hout, fun invoke m => ?_⟩
  obtain ⟨-, made, hyg⟩ := Lowering.names_visit hn.lawful hs hok
  have hfits := fits_of_hygienic hyg fun name => Lowering.taken_ofTree hs
  rw [hrun]
  exact congrFun ((hsim.2 e hroot).evaluate invoke _ hfits) m

def nested : Term :=
  .assign (some .add) "x" (.binary .mul (.update .increment false "x")
    (.assign (some .sub) "y" (.unary .neg (.ident "x"))))

def nestedRoot : Node :=
  ⟨0, .str "AssignmentExpression", [("operator", .str "+="),
    ("left", .node 1 (.str "Identifier") [("name", .str "x")]),
    ("right", .node 2 (.str "BinaryExpression") [("operator", .str "*"),
      ("left", .node 3 (.str "UpdateExpression") [("operator", .str "++"), ("prefix", .bool false),
        ("argument", .node 4 (.str "Identifier") [("name", .str "x")])]),
      ("right", .node 5 (.str "AssignmentExpression") [("operator", .str "-="),
        ("left", .node 6 (.str "Identifier") [("name", .str "y")]),
        ("right", .node 7 (.str "UnaryExpression") [("operator", .str "-"),
          ("argument", .node 8 (.str "Identifier") [("name", .str "x")])])])])]⟩

lemma depicts_nested : Depicts nested nestedRoot.toTree := by
  have hx (i : Nat) : Variable "x" (.node i (.str "Identifier") [("name", .str "x")]) :=
    ⟨⟨i, _, _⟩, rfl, rfl, _, rfl, rfl⟩
  have hy : Variable "y" (.node 6 (.str "Identifier") [("name", .str "y")]) :=
    ⟨⟨6, _, _⟩, rfl, rfl, _, rfl, rfl⟩
  refine ⟨nestedRoot, rfl, rfl, ⟨_, rfl, rfl⟩, ⟨_, rfl, hx 1⟩, _, rfl, .binaryExpression, by simp,
    ⟨2, _, _⟩, rfl, rfl, ⟨_, rfl, rfl⟩, ⟨_, rfl, ⟨3, _, _⟩, rfl, rfl, ⟨_, rfl, rfl⟩, ⟨_, rfl, rfl⟩,
    _, rfl, hx 4⟩, _, rfl, ⟨5, _, _⟩, rfl, rfl, ⟨_, rfl, rfl⟩, ⟨_, rfl, hy⟩, _, rfl, ⟨7, _, _⟩, rfl,
    rfl, ⟨_, rfl, rfl⟩, _, rfl, hx 8⟩

theorem lowering_preserves_meaning_nested : ∃ s m,
    (Lowering.run Options.default nestedRoot.toTree 9).outcome = .ok s ∧
      evaluate Invocation.bounded ⟨s.unaryFn, s.binaryFn⟩
        (Lowering.run Options.default nestedRoot.toTree 9).tree
        ⟨[("x", .num (.int 3)), ("y", .num (.int 5))], ⟨[], 0⟩⟩ = (.ok (.num (.int 30)), m) ∧
      m.store = [("x", .num (.int 30)), ("y", .num (.int 9))] := by
  obtain ⟨s, hs, heval⟩ :=
    lowering_preserves_meaning nested nestedRoot depicts_nested Options.default rfl rfl 9
  exact ⟨s, _, hs, heval .., rfl⟩

end Overload.Semantics
