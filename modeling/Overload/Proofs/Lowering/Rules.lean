import Overload.Lowering.Basic
import Overload.Proofs.Visit.Frames
import Overload.Proofs.Visit.Triple

/-! What the built-in rules are made of. -/

namespace Overload

variable {options : Options} {n : Node} {kind : String}

def Grows {α : Type} (f : Fresh α) : Prop := ∀ k, k ≤ (f k).2

namespace Grows

variable {α β : Type}

lemma node (kind : String) (fields : List (String × Tree)) : Grows (Build.node kind fields) :=
  fun k => Nat.le_succ k

lemma pure (x : α) : Grows (pure x : Fresh α) := fun k => Nat.le_refl k

lemma bind {f : Fresh α} {g : α → Fresh β} (hf : Grows f) (hg : ∀ x, Grows (g x)) :
    Grows (f >>= g) := fun k => Nat.le_trans (hf k) (hg _ _)

end Grows

namespace Lowering

open Visit

lemma rules_eq (h : options.customRules = []) : rules options = builtinRules := by
  simp [rules, h, ofScripts, merge, builtinRules, operatorRules, moduleRules, generalRules,
    Entries.set, Entries.get?]

lemma exports_use (s : State) (h : Helper) : (s.use h).2.exports = s.exports := by
  cases h with
  | unary => simp only [State.use, State.useUnary]; split <;> rfl
  | binary => simp only [State.use, State.useBinary]; split <;> rfl
  | importer => simp only [State.use, State.useImport]; split <;> rfl
  | temporary => rfl

inductive Routine : {α : Type} → Step α → Prop
  | pure {α : Type} (x : α) : Routine (pure x)
  | throw {α : Type} (e : Fault) : Routine (throw e : Step α)
  | lift {α : Type} (r : Except Fault α) : Routine (lift r)
  | getState : Routine getState
  | getNode : Routine getNode
  | build {α : Type} {f : Fresh α} : Grows f → Routine (build f)
  | use (h : Helper) : Routine (useHelper h)
  | record (e : Export) : Routine (recordExport e)
  | await : Routine noteAwait
  | replaceBy (t : Tree) : Routine (replaceBy t)
  | bind {α β : Type} {a : Step α} {f : α → Step β} : Routine a → (∀ x, Routine (f x)) →
      Routine (a >>= f)

namespace Routine

variable {α β : Type}

lemma attr (name : String) : Routine (attr name) := getNode.bind fun _ => lift _

lemma node (kind : String) (fields : List (String × Tree)) :
    Routine (Visit.build (Build.node kind fields)) := build (Grows.node kind fields)

lemma ite {p : Prop} [Decidable p] {a b : Step α} (ha : Routine a) (hb : Routine b) :
    Routine (if p then a else b) := by
  split
  · exact ha
  · exact hb

lemma mapM {f : α → Step β} (hf : ∀ x, Routine (f x)) (xs : List α) : Routine (xs.mapM f) := by
  induction xs with
  | nil => exact pure _
  | cons x xs ih =>
    rw [List.mapM_cons]
    exact (hf x).bind fun y => ih.bind fun ys => pure _

lemma forM {f : α → Step PUnit} (hf : ∀ x, Routine (f x)) (xs : List α) :
    Routine (xs.forM f) := by
  induction xs with
  | nil => exact pure _
  | cons x xs ih => exact (hf x).bind fun _ => ih

lemma confined {a : Step α} (h : Routine a) : Confined a := by
  induction h with
  | pure x => exact .pure x
  | throw e => exact .throw e
  | lift r => exact .lift r
  | getState => exact .getState
  | getNode => exact .getNode
  | build _ => exact .build _
  | use h | record e | await => exact .of_site fun _ => rfl
  | replaceBy t => exact .replaceBy t
  | bind _ _ iha ihf => exact iha.bind ihf

end Routine

lemma routine_overloading {rule : Step Unit} (h : Routine rule) : Routine (overloading rule) :=
  Routine.getState.bind fun _ => .ite h (.pure _)

lemma routine_binaryCall (left token right : Tree) : Routine (binaryCall left token right) :=
  (Routine.use _).bind fun _ => (Routine.node _ _).bind fun _ => .build (.bind (.node _ _) fun _ => .node _ _)

lemma routine_assignment (target token value : Tree) :
    Routine (assignment target token value) :=
  (Routine.lift _).bind fun _ => (Routine.node _ _).bind fun _ =>
    (routine_binaryCall _ _ _).bind fun _ => .build (.bind (.node _ _) fun _ => .node _ _)

lemma routine_calledAtOnce (body : List Tree) (isAsync : Bool) :
    Routine (calledAtOnce body isAsync) :=
  (Routine.build (.bind (.node _ _) fun _ => .node _ _)).bind fun _ => (Routine.node _ _).bind fun _ =>
    .ite (.node _ _) (.pure _)

lemma grows_assignedFirst (assigned name : Tree) : Grows (do
    return [← Build.statement assigned, ← Build.ret (← Build.identifier name)]) :=
  .bind (.node _ _) fun _ => .bind (.node _ _) fun _ => .bind (.node _ _) fun _ => .pure _

lemma grows_returnedFirst (assigned name : Tree) : Grows (do
    let returned ← Build.block [← Build.ret (← Build.identifier name)]
    let final ← Build.block [← Build.statement assigned]
    return [← Build.tryWith returned .null final]) :=
  .bind (.node _ _) fun _ => .bind (.node _ _) fun _ => .bind (.node _ _) fun _ =>
    .bind (.node _ _) fun _ => .bind (.node _ _) fun _ => .bind (.node _ _) fun _ => .pure _

lemma routine_assignThenReturn (target token value : Tree) :
    Routine (assignThenReturn target token value) :=
  (routine_assignment _ _ _).bind fun _ => (Routine.lift _).bind fun _ => .ite (.pure _) <|
    (Routine.lift _).bind fun _ => (Routine.lift _).bind fun _ => (Routine.build (grows_assignedFirst _ _)).bind fun _ =>
      routine_calledAtOnce _ _

lemma routine_returnThenAssign (target token : Tree) : Routine (returnThenAssign target token) :=
  (Routine.node _ _).bind fun _ => (routine_assignment _ _ _).bind fun _ =>
    (Routine.lift _).bind fun _ => (Routine.build (grows_returnedFirst _ _)).bind fun _ => routine_calledAtOnce _ _

lemma routine_unaryRule : Routine unaryRule :=
  routine_overloading <| (Routine.attr _).bind fun _ => (Routine.lift _).bind fun _ =>
    .ite ((Routine.use _).bind fun _ => (Routine.node _ _).bind fun _ =>
      (Routine.attr _).bind fun _ => (Routine.build
        (.bind (.node _ _) fun _ => .node _ _)).bind fun _ => .replaceBy _) (.pure _)

lemma routine_binaryRule : Routine binaryRule :=
  routine_overloading <| (Routine.attr _).bind fun _ => (Routine.lift _).bind fun _ =>
    .ite ((Routine.attr _).bind fun _ => (Routine.attr _).bind fun _ =>
      (routine_binaryCall _ _ _).bind fun _ => .replaceBy _) (.pure _)

lemma routine_updateRule : Routine updateRule :=
  routine_overloading <| (Routine.attr _).bind fun _ => (Routine.lift _).bind fun _ =>
    (Routine.lift _).bind fun _ => .ite ((Routine.attr _).bind fun _ =>
      (Routine.lift _).bind fun _ => .ite ((Routine.attr _).bind fun _ =>
        .ite ((Routine.node _ _).bind fun _ => (routine_assignThenReturn _ _ _).bind fun _ =>
          .replaceBy _) ((routine_returnThenAssign _ _).bind fun _ => .replaceBy _)) (.pure _))
      (.pure _)

lemma routine_assignmentRule : Routine assignmentRule :=
  routine_overloading <| (Routine.attr _).bind fun _ => .ite (.pure _) <|
    (Routine.lift _).bind fun _ => (Routine.lift _).bind fun _ =>
      .ite ((Routine.attr _).bind fun _ => (Routine.lift _).bind fun _ =>
        .ite ((Routine.attr _).bind fun _ => (routine_assignThenReturn _ _ _).bind fun _ =>
          .replaceBy _) (.pure _)) (.pure _)

def importerCall (source : Tree) : Step Tree := do
  let callee ← build (Build.identifier (← useHelper .importer))
  let call ← build (Build.call callee [source])
  if (← getState).importIsAsync then build (Build.await call) else return call

lemma throw_bind {α β : Type} (e : Fault) (f : α → Step β) : (throw e : Step α) >>= f = throw e :=
  rfl

lemma importCall_eq (source : Tree) : importCall source = (do
    if (← getState).options.importer.isNone then
      throw (.importerMissing (← lift (source.get "value")))
    else importerCall source) := by
  simp only [importCall, throw_bind]
  rfl

lemma routine_importCall (source : Tree) : Routine (importCall source) := by
  rw [importCall_eq]
  refine Routine.getState.bind fun _ => .ite ((Routine.lift _).bind fun _ => .throw _) ?_
  exact (Routine.use _).bind fun _ => (Routine.node _ _).bind fun _ =>
    (Routine.node _ _).bind fun _ => Routine.getState.bind fun _ => .ite (.node _ _) (.pure _)

lemma routine_requireExports : Routine requireExports :=
  Routine.getState.bind fun _ => .ite (.pure _) (.throw _)

lemma routine_importProperty (specifier : Tree) : Routine (importProperty specifier) := by
  refine (Routine.lift _).bind fun kind => ?_
  split
  · exact (Routine.node _ _).bind fun _ => (Routine.lift _).bind fun _ => .node _ _
  · exact (Routine.lift _).bind fun _ => (Routine.lift _).bind fun _ => .node _ _
  · exact .throw _

def importDeclared (specifiers call : Tree) : Step Unit := do
  match ← lift (namespaceSpecifier? specifiers) with
  | some only =>
    let name ← lift ((← lift (only.attr "local")).attr "name")
    replaceBy (← build do constant (← Build.identifier name) call)
  | none =>
    let properties ← (← lift specifiers.elements).mapM importProperty
    replaceBy (← build do constant (← Build.objectPattern properties) call)

lemma importRule_eq : importRule = (do
    let specifiers ← attr "specifiers"
    if !specifiers.truthy then
      throw (.emptyImport (← lift ((← attr "source").get "value")))
    else importDeclared specifiers (← importCall (← attr "source"))) := by
  simp only [importRule, throw_bind]
  rfl

lemma grows_constant (kind : String) (fields : List (String × Tree)) (init : Tree) :
    Grows (do constant (← Build.node kind fields) init) :=
  .bind (.node _ _) fun _ => .bind (.node _ _) fun _ => .node _ _

lemma routine_importRule : Routine importRule := by
  rw [importRule_eq]
  refine (Routine.attr _).bind fun specifiers => .ite ?_ ?_
  · exact (Routine.attr _).bind fun _ => (Routine.lift _).bind fun _ => .throw _
  · refine (Routine.attr _).bind fun _ => (routine_importCall _).bind fun _ =>
      (Routine.lift _).bind fun only => ?_
    split
    · exact (Routine.lift _).bind fun _ => (Routine.lift _).bind fun _ =>
        (Routine.build (grows_constant _ _ _)).bind fun _ => .replaceBy _
    · exact (Routine.lift _).bind fun _ => (Routine.mapM routine_importProperty _).bind fun _ =>
        (Routine.build (grows_constant _ _ _)).bind fun _ => .replaceBy _

lemma routine_exportName (name key : Tree) : Routine (exportName name key) :=
  (Routine.node _ _).bind fun _ => (Routine.node _ _).bind fun _ => Routine.record _

lemma routine_passOn (specifier : Tree) : Routine (passOn specifier) :=
  (Routine.use _).bind fun _ => (Routine.lift _).bind fun _ => (Routine.build (.bind (.node _ _) fun _ => .node _ _)).bind
    fun _ => (Routine.node _ _).bind fun _ => (Routine.lift _).bind fun _ =>
      (Routine.record _).bind fun _ => .pure _

def exportElements (elements : List Tree) : Step Unit := do
  elements.forM fun s => do
    let declaration ← lift (s.attr "local")
    recordExport ⟨declaration, ← lift (s.attr "exported"), false⟩
  replaceBy (← build Build.empty)

lemma routine_exportNamedRule : Routine exportNamedRule := by
  refine routine_requireExports.bind fun _ => Routine.getNode.bind fun node => .ite ?_ (.ite ?_ ?_)
  · exact (Routine.attr _).bind fun _ => (routine_importCall _).bind fun _ =>
      (Routine.attr _).bind fun _ => (Routine.lift _).bind fun _ =>
        (Routine.mapM routine_passOn _).bind fun _ => (Routine.build (grows_constant _ _ _)).bind fun _ =>
          .replaceBy _
  · refine (Routine.lift _).bind fun _ => (Routine.forM (fun _ => ?_) _).bind fun _ =>
      .replaceBy _
    exact (Routine.lift _).bind fun _ => routine_exportName _ _
  · have rest (elements : List Tree) : Routine (exportElements elements) := by
      refine (Routine.forM (fun _ => ?_) _).bind fun _ => (Routine.node _ _).bind fun _ =>
        .replaceBy _
      exact (Routine.lift _).bind fun _ => (Routine.lift _).bind fun _ => Routine.record _
    exact .ite ((Routine.lift _).bind rest) ((Routine.pure _).bind rest)

lemma routine_exportDefaultRule : Routine exportDefaultRule := by
  refine routine_requireExports.bind fun _ => (Routine.attr _).bind fun _ =>
    (Routine.lift _).bind fun _ => (Routine.lift _).bind fun _ => (Routine.lift _).bind fun _ =>
      .ite ?_ ?_
  · exact (Routine.lift _).bind fun _ => (routine_exportName _ _).bind fun _ => .replaceBy _
  · exact (Routine.node _ _).bind fun _ => (Routine.record _).bind fun _ =>
      (Routine.node _ _).bind fun _ => .replaceBy _

lemma routine_exportAllRule : Routine exportAllRule :=
  routine_requireExports.bind fun _ => (Routine.attr _).bind fun _ =>
    (routine_importCall _).bind fun _ => Routine.getNode.bind fun _ =>
      (Routine.record _).bind fun _ => (Routine.lift _).bind fun _ =>
        (Routine.node _ _).bind fun _ => .replaceBy _

lemma programRule_child {c : Context State} {p : Node} (h : c.site.parent = some p) :
    programRule c = (.ok (), c) := by
  simp only [programRule, bind_def, getSite, Site.isRoot, h]
  rfl

def asBlock (n : Node) : Node := (n.set "type" (.str "BlockStatement")).erase "sourceType"

lemma get_asBlock (m : Node) : (asBlock m).get "body" = m.get "body" := by
  simp [asBlock, Node.get, Node.get?, Node.set, Node.erase, Entries.get?_erase_of_ne]

lemma get_appended (n : Node) (body : List Tree) (t : Tree) :
    (appended n body t).get "body" = .list (body ++ [t]) := by
  simp [appended]

def returned (exports : List Export) : Making Tree := do
  making (Build.ret (← exportsObject exports))

def closeProgram (exports : List Export) : Step Unit := do
  match ← attr "body" with
  | .list body =>
    let statement ← lift (← build (returned exports))
    setNode (appended (← getNode) body statement)
  | _ => throw .noAttribute

lemma closeProgram_eq (exports : List Export) (c : Context State) :
    closeProgram exports c =
      match c.site.node.attr "body" with
      | .ok (.list body) =>
        match returned exports c.next with
        | (.ok t, next) => (.ok (), { c with
            site := { c.site with node := appended c.site.node body t }, next := next })
        | (.error e, next) => (.error e, { c with next := next })
      | .ok _ => (.error .noAttribute, c)
      | .error e => (.error e, c) := by
  have hattr : attr "body" c = (c.site.node.attr "body", c) := rfl
  rw [closeProgram, bind_def, hattr]
  cases c.site.node.attr "body" with
  | error e => rfl
  | ok t =>
    cases t with
    | list body =>
      dsimp only
      rw [bind_def]
      dsimp only [build]
      rw [bind_def]
      rcases returned exports c.next with ⟨r, next⟩
      cases r <;> rfl
    | _ => rfl

lemma programRule_root {c : Context State} (h : c.site.parent = none) :
    programRule c =
      if c.state.options.returnsExports then
        closeProgram c.state.exports { c with site := { c.site with node := asBlock c.site.node } }
      else (.ok (), { c with site := { c.site with node := asBlock c.site.node } }) := by
  obtain ⟨⟨node, parent, key, index, orphan, replaced⟩, next, notes, state⟩ := c
  obtain rfl : parent = none := h
  change (if state.options.returnsExports = true then closeProgram state.exports else pure ())
    ⟨⟨asBlock node, none, key, index, orphan, replaced⟩, next, notes, state⟩ = _
  split <;> rfl

lemma confined_programRule : Confined programRule := by
  intro c hc
  cases hp : c.site.parent with
  | some p =>
    rw [programRule_child hp]
    exact .refl hc
  | none =>
    have stays (n : Node) : c.site.Stays { c.site with node := n } :=
      ⟨rfl, rfl, rfl, fun q hq => by simp [hp] at hq, fun _ => hp, by simp [hp]⟩
    rw [programRule_root hp]
    split
    · rw [closeProgram_eq]
      split
      · split <;> exact stays _
      · exact stays _
      · exact stays _
    · exact stays _

lemma routine_of_mem {e : String × List (Rule State)} (he : e ∈ builtinRules) {r : Rule State}
    (hr : r ∈ e.2) : Routine r ∨ e.1 = "Program" ∧ r = programRule ∨
      e.1 = "Identifier" ∧ r = identifierRule := by
  simp only [builtinRules, operatorRules, moduleRules, generalRules, List.cons_append,
    List.nil_append, List.mem_cons, List.not_mem_nil, or_false] at he
  rcases he with rfl | rfl | rfl | rfl | rfl | rfl | rfl | rfl | rfl | rfl | rfl | rfl | rfl <;>
    obtain rfl := List.mem_singleton.1 hr
  · exact .inl routine_unaryRule
  · exact .inl routine_binaryRule
  · exact .inl routine_binaryRule
  · exact .inl routine_updateRule
  · exact .inl routine_assignmentRule
  · exact .inl routine_importRule
  · exact .inl routine_exportNamedRule
  · exact .inl routine_exportDefaultRule
  · exact .inl routine_exportAllRule
  · exact .inr (.inl ⟨rfl, rfl⟩)
  · exact .inl .await
  · exact .inl (Routine.getNode.bind fun _ => .ite .await (.pure _))
  · exact .inr (.inr ⟨rfl, rfl⟩)

lemma confined_identifierRule : Confined identifierRule :=
  (Confined.attr _).bind fun _ => Confined.getState.bind fun _ => (Confined.lift _).bind fun _ =>
    .setState _

lemma confined_builtinRules : Table.Confined builtinRules := by
  intro e he r hr
  rcases routine_of_mem he hr with h | ⟨-, rfl⟩ | ⟨-, rfl⟩
  · exact h.confined
  · exact confined_programRule
  · exact confined_identifierRule

theorem run_eq (hc : options.customRules = []) {root : Node} (hl : Lawful root) {s : State}
    (hs : State.ofTree root.toTree options = .ok s) (next : Nat) :
    run options root.toTree next =
      let v := visit builtinRules root ⟨none, "", none⟩ ⟨next, [], s⟩
      ⟨v.outcome.map fun _ => v.progress.state, v.node.toTree, v.progress.next,
        v.progress.notes⟩ := by
  have hroot : root.toTree.asNode = .ok root := rfl
  simp only [run, hroot, hs, rules_eq hc, runWith_eq_visit confined_builtinRules hl]

lemma run_eq_ok (hc : options.customRules = []) {root : Node} (hl : Lawful root) {next : Nat}
    {s : State} (h : (run options root.toTree next).outcome = .ok s) :
    ∃ start m q, State.ofTree root.toTree options = .ok start ∧
      visit builtinRules root ⟨none, "", none⟩ ⟨next, [], start⟩ = ⟨.ok (), m, q⟩ ∧ q.state = s ∧
      run options root.toTree next = ⟨.ok s, m.toTree, q.next, q.notes⟩ := by
  cases hs : State.ofTree root.toTree options with
  | error e => simp [run, hs, show root.toTree.asNode = .ok root from rfl] at h
  | ok start =>
    rw [run_eq hc hl hs] at h ⊢
    generalize hv : visit builtinRules root ⟨none, "", none⟩ ⟨next, [], start⟩ = v at h ⊢
    obtain ⟨outcome, m, q⟩ := v
    cases outcome with
    | error e => cases h
    | ok u =>
      obtain rfl : q.state = s := Except.ok.inj h
      exact ⟨start, m, q, rfl, hv, rfl, rfl⟩

lemma applyRules_singleton (r : Rule State) (c : Context State) : applyRules [r] c = r c := by
  simp only [applyRules, bind_def]
  split
  · rename_i d hd
    rw [hd]
    simp only [getSite]
    split <;> rfl
  · rename_i hd
    rw [hd]

def siteAt (place : Place) (n : Node) : Site :=
  ⟨n, place.parent, place.key, place.index, none, false⟩

lemma finish_of_rule {rule : Step Unit} (hk : n.kind = .str kind)
    (hr : Entries.get? kind builtinRules = some [rule]) (place : Place) (p : Progress State) :
    finish builtinRules place n p =
      let r := rule ⟨siteAt place n, p.next, p.notes, p.state⟩
      ⟨r.1, r.2.site.node, ⟨r.2.next, r.2.notes, r.2.state⟩⟩ := by
  have hrules : rulesFor builtinRules n = .ok [rule] := by
    simp [rulesFor, hk, Tree.key, Tree.isKey, bind, Except.bind, hr, pure, Except.pure]
  simp only [finish, hrules, applyRules_singleton, siteAt]

lemma finish_of_none (hk : n.kind = .str kind) (hr : Entries.get? kind builtinRules = none)
    (place : Place) (p : Progress State) : finish builtinRules place n p = ⟨.ok (), n, p⟩ := by
  have hrules : rulesFor builtinRules n = .ok [] := by
    simp [rulesFor, hk, Tree.key, Tree.isKey, bind, Except.bind, hr, pure, Except.pure]
  simp only [finish, hrules]
  rfl

lemma get?_builtinRules {rules : List (Rule State)}
    (h : Entries.get? kind builtinRules = some rules) : ∃ rule, rules = [rule] := by
  have hall : ∀ e ∈ builtinRules, ∃ rule, e.2 = [rule] := by
    simp [builtinRules, operatorRules, moduleRules, generalRules]
  exact hall _ (Entries.mem_of_get? h)

lemma finish_cases {place : Place} {p : Progress State}
    (h : (finish builtinRules place n p).outcome = .ok ()) :
    finish builtinRules place n p = ⟨.ok (), n, p⟩ ∧
        (∀ kind, n.kind = .str kind → Entries.get? kind builtinRules = none) ∨
      ∃ kind rule d, n.kind = .str kind ∧ Entries.get? kind builtinRules = some [rule] ∧
        rule ⟨siteAt place n, p.next, p.notes, p.state⟩ = (.ok (), d) ∧
        finish builtinRules place n p = ⟨.ok (), d.site.node, d.progress⟩ := by
  cases hk : n.kind with
  | str kind =>
    cases hr : Entries.get? kind builtinRules with
    | none => exact .inl ⟨finish_of_none hk hr place p, by simpa using hr⟩
    | some rules =>
      obtain ⟨rule, rfl⟩ := get?_builtinRules hr
      rw [finish_of_rule hk hr] at h ⊢
      refine .inr ⟨kind, rule, _, rfl, hr, Prod.ext h rfl, ?_⟩
      dsimp only at h ⊢
      rw [h]
      rfl
  | _ =>
    refine .inl ⟨?_, by simp⟩
    simp only [finish, rulesFor, hk, Tree.key, Tree.isKey, bind, Except.bind] at h ⊢
    first | rfl | simp at h

end Lowering

end Overload
