import Overload.Proofs.Lowering.Scope
import Overload.Proofs.Lowering.Visits

/-! Programs that import and export nothing, without overloading. -/

namespace Overload.Lowering

open Visit Overload.Tree

variable {options : Options} {n m : Node} {p q start : Progress State} {place : Place}

lemma still_of_operator (ho : options.overloading = false) {kind : String} {keys : List String}
    (hmem : (kind, keys) ∈ operands) (hk : m.kind = .str kind) : Still options m := by
  have hrule : ∃ rule, Entries.get? kind builtinRules = some [overloading rule] := by
    simp only [operands, List.mem_cons, List.not_mem_nil, or_false, Prod.mk.injEq] at hmem
    rcases hmem with ⟨rfl, -⟩ | ⟨rfl, -⟩ | ⟨rfl, -⟩ | ⟨rfl, -⟩ | ⟨rfl, -⟩
    all_goals exact ⟨_, rfl⟩
  obtain ⟨rule, hr⟩ := hrule
  refine still_of_rule hk hr fun c _ hopt _ => ⟨c.state, overloading_off ?_ rule, .refl _⟩
  simp [hopt, ho]

def Quiet (start q : Progress State) : Prop :=
  ∃ s, q = { start with state := s } ∧ Similar start.state s

lemma Quiet.refl (start : Progress State) : Quiet start start := ⟨_, rfl, .refl _⟩

lemma Quiet.trans {r : Progress State} (h : Quiet p q) (h' : Quiet q r) : Quiet p r := by
  obtain ⟨s, rfl, hs⟩ := h
  obtain ⟨t, rfl, ht⟩ := h'
  exact ⟨t, rfl, hs.trans ht⟩

lemma Quiet.same_options (h : Quiet p q) : q.state.options = p.state.options := by
  obtain ⟨s, rfl, hs⟩ := h
  rw [hs]

lemma finish_quiet (ho : p.state.options.overloading = false)
    (hm : ∀ kind ∈ moduleKinds, m.is kind = false)
    (hroot : place.parent = none → m.is "Program" = false)
    (h : (finish builtinRules place m p).outcome = .ok ()) :
    (finish builtinRules place m p).node = m ∧ Quiet p (finish builtinRules place m p).progress := by
  have hstill (hs : Still p.state.options m) : (finish builtinRules place m p).node = m ∧
      Quiet p (finish builtinRules place m p).progress := by
    obtain ⟨s, hs, hsim⟩ := hs m place p (fun _ => rfl) rfl hroot
    rw [hs]
    exact ⟨rfl, s, rfl, hsim⟩
  generalize hn : (finish builtinRules place m p).node = m',
    hp : (finish builtinRules place m p).progress = q at hstill ⊢
  cases hn ▸ hp ▸ stepped_of_finish h with
  | turned ht =>
    cases ht with
    | still hs => exact hstill hs
    | operator hmem hk => exact hstill (still_of_operator ho hmem (Node.is_iff.1 hk))
    | declaration hd =>
      obtain ⟨kind, hmem, hk⟩ := hd.is_module
      rw [hm kind hmem] at hk
      cases hk
  | program hnone hk =>
    rw [hroot hnone] at hk
    cases hk

lemma visit_quiet {root : Node} (hl : Lawful root) (ho : start.state.options.overloading = false)
    (hm : ∀ n, Below root n → ∀ kind ∈ moduleKinds, n.is kind = false)
    (h : (visit builtinRules root place start).outcome = .ok ()) :
    ∃ q, Quiet start q ∧ visit builtinRules root place start = finish builtinRules place root q := by
  obtain ⟨m, q, hr, hv⟩ := renewed_root (P := fun c a d b => Quiet start a → Quiet start b ∧ d = c)
    hl (fun n m p q parent key index hb hr hf hp => by
      obtain ⟨hq, rfl⟩ := hr.keeps hp
      obtain ⟨hnode, hquiet⟩ := finish_quiet (by rw [hq.same_options, ho]) (hm m hb) (by simp) hf
      exact ⟨hq.trans hquiet, hnode⟩) h
  obtain ⟨hq, rfl⟩ := hr.keeps (.refl start)
  exact ⟨q, hq, hv⟩

def emptyReturn (next : Nat) : Tree :=
  .node (next + 1) (.str "ReturnStatement")
    [("argument", .node next (.str "ObjectExpression") [("properties", .list [])])]

/-- Without overloading, lowering a program that imports and exports nothing changes its root only.
The root becomes a block without a source type, and where programs return their exports, its body
ends with the return of an empty object. No helper is used, and no export is recorded. -/
theorem plain_program_only_closed {root : Node} (hl : Lawful root) (hp : root.is "Program" = true)
    (hm : ∀ n, Below root n → ∀ kind ∈ moduleKinds, n.is kind = false) (options : Options)
    (hc : options.customRules = []) (ho : options.overloading = false) (next : Nat) {s : State}
    (h : (run options root.toTree next).outcome = .ok s) :
    s.exports = [] ∧ s.helpers = [] ∧
    (options.returnsExports = false →
      (run options root.toTree next).tree = (asBlock root).toTree) ∧
    (options.returnsExports = true → ∃ body, root.get? "body" = some (.list body) ∧
      (run options root.toTree next).tree =
        (appended (asBlock root) body (emptyReturn next)).toTree) := by
  obtain ⟨state, m, q, hs, hv, rfl, hrun⟩ := run_eq_ok hc hl h
  obtain ⟨hopt, he, -, hh, -⟩ := ofTree_eq_ok hs
  have hok : (visit builtinRules root ⟨none, "", none⟩ ⟨next, [], state⟩).outcome = .ok () := by
    rw [hv]
  obtain ⟨-, ⟨t, rfl, hsim⟩, hfinish⟩ := visit_quiet hl (by rw [hopt, ho]) hm hok
  rw [hv] at hfinish
  have hstep := stepped_of_finish (by rw [← hfinish])
  rw [← hfinish] at hstep
  obtain ⟨k, hcloses, rfl⟩ := hstep.closes rfl hp
  have hto : t.options = options := by rw [hsim]; exact hopt
  have hte : t.exports = [] := by rw [hsim]; exact he
  have hth : t.helpers = [] := by rw [hsim]; exact hh
  rw [hrun]
  refine ⟨hte, hth, fun hreturns => ?_, fun hreturns => ?_⟩
  · cases hcloses with
    | plain => rfl
    | exports ht => simp [hto, hreturns] at ht
  · cases hcloses with
    | plain ht => simp [hto, hreturns] at ht
    | exports _ hbody hret =>
      rw [hte] at hret
      obtain rfl := Except.ok.inj (congrArg Prod.fst hret)
      exact ⟨_, hbody, rfl⟩

def nestedProgram : Data :=
  let name (s : String) : Data := .object [("type", .str "Identifier"), ("name", .str s)]
  .object [("type", .str "Program"), ("sourceType", .str "module"), ("body", .list [
    .object [("type", .str "ExpressionStatement"), ("expression",
      .object [("type", .str "UpdateExpression"), ("argument", name "x"), ("operator", .str "++"),
        ("prefix", .bool true)])],
    .object [("type", .str "Program"), ("sourceType", .str "script"), ("body", .list [
      .object [("type", .str "Pipeline"), ("stage",
        .object [("type", .str "BinaryExpression"), ("left", name "y"), ("operator", .str "+"),
          ("right", name "z")])]])]])]

theorem plain_program_only_closed_nested : ∃ root : Node, ∃ s body,
    (Tree.ofData nestedProgram 0).1 = root.toTree ∧
      (run { Options.default with overloading := false } root.toTree 9).outcome = .ok s ∧
      s.exports = [] ∧ s.helpers = [] ∧ root.get? "body" = some (.list body) ∧
      (run { Options.default with overloading := false } root.toTree 9).tree =
        (appended (asBlock root) body (emptyReturn 9)).toTree := by
  obtain ⟨root, hroot⟩ : ∃ root : Node, (ofData nestedProgram 0).1 = root.toTree :=
    ⟨⟨_, _, _⟩, rfl⟩
  have hok : (run { Options.default with overloading := false }
      (ofData nestedProgram 0).1 9).outcome.toOption.isSome = true := by decide +kernel
  have hplain : Every (fun n => ∀ kind ∈ moduleKinds, n.is kind = false)
      (ofData nestedProgram 0).1 := by decide +kernel
  have htidy := tidy_ofData nestedProgram 0 (by decide +kernel)
  have hkind : (ofData nestedProgram 0).1.is "Program" = true := by decide +kernel
  rw [hroot] at hok hplain htidy hkind
  cases hr : (run { Options.default with overloading := false } root.toTree 9).outcome with
  | error e => simp [hr, Except.toOption] at hok
  | ok s =>
    obtain ⟨he, hh, -, hreturns⟩ := plain_program_only_closed htidy.lawful hkind
      (fun n hb => hplain.reaches ⟨_, rfl, hb⟩) { Options.default with overloading := false } rfl rfl
      9 hr
    obtain ⟨body, hbody, ht⟩ := hreturns rfl
    exact ⟨root, s, body, hroot, hr, he, hh, hbody, ht⟩

end Overload.Lowering
