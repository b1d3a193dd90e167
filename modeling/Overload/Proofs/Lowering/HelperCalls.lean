import Overload.Proofs.Lowering.Temporaries

/-! Calls of helpers. -/

namespace Overload.Lowering

open Visit State Build

variable {m root : Node} {k j : Nat} {s s' : State} {t : Tree} {keys : List String}
  {name : String} {b : State.Binding}

section Bindings

def bindingFor (options : Options) : Helper → Option State.Binding
  | .unary => some .unary
  | .binary => some .binary
  | .importer => some (.importer options.importer)
  | .temporary => none

lemma mem_bindings : (name, b) ∈ s.bindings ↔ s.unaryFn = some name ∧ b = .unary ∨
    s.binaryFn = some name ∧ b = .binary ∨
    s.importFn = some name ∧ b = .importer s.options.importer := by
  have hmem (o : Option String) (c : State.Binding) :
      (name, b) ∈ (o.map fun n => (n, c)).toList ↔ o = some name ∧ b = c := by
    cases o with
    | none => simp
    | some other => simp [eq_comm]
  simp only [bindings, List.mem_append, hmem, or_assoc]

lemma mem_bindings_use {h : Helper} (hmem : (name, b) ∈ (s.use h).2.bindings) :
    (name, b) ∈ s.bindings ∨ name = (s.use h).1 ∧ bindingFor s.options h = some b := by
  cases h with
  | unary =>
    simp only [use, useUnary] at hmem ⊢
    split at hmem
    · exact .inl hmem
    · rw [mem_bindings] at hmem ⊢
      rcases hmem with ⟨hname, rfl⟩ | hmem
      · exact .inr ⟨(Option.some.inj hname).symm, rfl⟩
      · exact .inl (.inr hmem)
  | binary =>
    simp only [use, useBinary] at hmem ⊢
    split at hmem
    · exact .inl hmem
    · rw [mem_bindings] at hmem ⊢
      rcases hmem with hmem | ⟨hname, rfl⟩ | hmem
      · exact .inl (.inl hmem)
      · exact .inr ⟨(Option.some.inj hname).symm, rfl⟩
      · exact .inl (.inr (.inr hmem))
  | importer =>
    simp only [use, useImport] at hmem ⊢
    split at hmem
    · exact .inl hmem
    · rw [mem_bindings] at hmem ⊢
      rcases hmem with hmem | hmem | ⟨hname, rfl⟩
      · exact .inl (.inl hmem)
      · exact .inl (.inr (.inl hmem))
      · exact .inr ⟨(Option.some.inj hname).symm, rfl⟩
  | temporary => exact .inl hmem

lemma PassesOn.bindings {xs ps : List Tree} (h : PassesOn xs k s ps j s') :
    s'.bindings = s.bindings := by
  induction h with
  | nil => rfl
  | cons _ _ _ ih => exact ih

lemma Declared.mem_bindings (h : Declared m k s t j s') (hmem : (name, b) ∈ s'.bindings) :
    (name, b) ∈ s.bindings ∨ name = (s.use .importer).1 ∧ b = .importer s.options.importer := by
  have huse (hmem : (name, b) ∈ (s.use .importer).2.bindings) :
      (name, b) ∈ s.bindings ∨ name = (s.use .importer).1 ∧ b = .importer s.options.importer :=
    (mem_bindings_use hmem).imp_right fun ⟨hname, hb⟩ => ⟨hname, (Option.some.inj hb).symm⟩
  rcases h.cases with ⟨xs, ps, i, _, -, hps, -⟩ | ⟨-, u, hu, hsame⟩
  · exact huse (hps.bindings ▸ hmem)
  · rw [hsame] at hmem
    rcases hu with rfl | rfl
    · exact .inl hmem
    · exact huse hmem

end Bindings

section Calls

inductive Takes (options : Options) : State.Binding → List Tree → Prop
  | unary {token : String} {i : Nat} {argument : Tree} : token ∈ unaryTokens →
      Takes options .unary [(literal (.str token) i).1, argument]
  | binary {token : String} {i : Nat} {left right : Tree} : token ∈ binaryTokens →
      Takes options .binary [left, (literal (.str token) i).1, right]
  | importer {source : Tree} : Takes options (.importer options.importer) [source]

def Calls (options : Options) (name : String) (b : State.Binding) (n : Node) : Prop :=
  n.is "CallExpression" = true ∧ ∃ i arguments,
    n.get? "callee" = some (identifier (.str name) i).1 ∧
    n.get? "arguments" = some (.list arguments) ∧ Takes options b arguments

def callTo (name : String) (i j : Nat) (arguments : List Tree) : Node :=
  ⟨j, .str "CallExpression", [("callee", (identifier (.str name) i).1),
    ("arguments", .list arguments), ("optional", .bool false)]⟩

lemma calls_callTo {options : Options} {arguments : List Tree} (h : Takes options b arguments)
    (i j : Nat) : Calls options name b (callTo name i j arguments) :=
  ⟨rfl, i, arguments, rfl, rfl, h⟩

lemma takes_unary {token argument : Tree} (options : Options)
    (h : token.among unaryTokens = .ok true) (i : Nat) :
    Takes options .unary [(literal token i).1, argument] := by
  obtain ⟨text, rfl, hmem⟩ := among_eq_true h
  exact .unary hmem

lemma takes_binary {left token right : Tree} (options : Options)
    (h : token.among binaryTokens = .ok true) (i : Nat) :
    Takes options .binary [left, (literal token i).1, right] := by
  obtain ⟨text, rfl, hmem⟩ := among_eq_true h
  exact .binary hmem

lemma WrapsIn.below {new c : Node} (h : WrapsIn k new.toTree c) : Below new c := by
  obtain ⟨n, hn, -, hw⟩ := h
  exact Node.toTree_injective hn ▸ hw.below

def assignedCall (i : Nat) (helper : String) (name token value : Tree) : Node :=
  callTo helper (i + 1) (i + 3) [(identifier name i).1, (literal token (i + 2)).1, value]

lemma wrapsIn_assignedCall {i : Nat} (hi : k ≤ i) (helper : String) (name token value : Tree) :
    WrapsIn k (assigned i helper name token value) (assignedCall i helper name token value) :=
  wrapsIn_child .assignmentExpression rfl (show "right" ∈ _ by decide) (by decide) rfl (by omega)

lemma Rewritten.calls {new : Node} (h : Rewritten m k s keys new.toTree j s') :
    ∃ helper b y, s' = (s.use helper).2 ∧ bindingFor s.options helper = some b ∧ k ≤ y.id ∧
      Calls s.options (s.use helper).1 b y ∧ Below new y := by
  have hassigned {i : Nat} {name token value : Tree} (hi : k ≤ i)
      (htoken : token.among binaryTokens = .ok true)
      (hw : WrapsIn k new.toTree (assignedCall i (s.use .binary).1 name token value)) :
      ∃ helper b y, (s.use .binary).2 = (s.use helper).2 ∧ bindingFor s.options helper = some b ∧
        k ≤ y.id ∧ Calls s.options (s.use helper).1 b y ∧ Below new y :=
    ⟨.binary, _, _, rfl, rfl, Nat.le_trans hi (Nat.le_add_right i 3),
      calls_callTo (takes_binary _ htoken _) .., hw.below⟩
  generalize ht : new.toTree = t at h hassigned
  cases h with
  | unary _ htoken =>
    obtain rfl : new = callTo _ k (k + 2) _ := Node.toTree_injective ht
    exact ⟨.unary, _, _, rfl, rfl, Nat.le_add_right k 2, calls_callTo (takes_unary _ htoken _) ..,
      .refl⟩
  | binary _ _ htoken =>
    obtain rfl : new = callTo _ k (k + 2) _ := Node.toTree_injective ht
    exact ⟨.binary, _, _, rfl, rfl, Nat.le_add_right k 2, calls_callTo (takes_binary _ htoken _) ..,
      .refl⟩
  | assign hv _ htoken => exact hassigned hv.le htoken (wrapsIn_assignedCall hv.le ..)
  | @assignThenReturn _ name token value j _ hv _ _ htoken =>
    have hle := hv.le
    have hstatement := (wrapsIn_assignedCall hle (s.use .binary).1 name token value).statement
      (show k ≤ j + 6 by omega)
    exact hassigned hle htoken (hstatement.settled (by simp [returnLast]) (by omega))
  | @returnThenAssign name token _ htoken =>
    have hstatement := (wrapsIn_assignedCall (Nat.le_succ k) (s.use .binary).1 name token
      (literal (.num (.int 1)) k).1).statement (show k ≤ k + 10 by omega)
    have hblock := hstatement.block (List.mem_singleton_self _) (show k ≤ k + 11 by omega)
    have htry (body : Tree) : WrapsIn k (tryWith body .null _ (k + 12)).1 _ :=
      hblock.field .tryStatement rfl (show "finalizer" ∈ _ by decide) (by decide) rfl (by omega)
    exact hassigned (Nat.le_succ k) htoken ((htry _).settled (List.mem_singleton_self _) (by omega))

lemma Stands.trans {n y z : Node} (h : Stands n s y) (hz : Below y z) : Stands n s z := by
  rcases h with h | ⟨hreturns, e, he, c, hc, hb⟩
  · exact .inl (h.trans hz)
  · exact .inr ⟨hreturns, e, he, c, hc, hb.trans hz⟩

lemma Declared.calls {new : Node} (h : Declared m k s new.toTree j s')
    (hno : (name, b) ∉ s.bindings) (hmem : (name, b) ∈ s'.bindings) :
    ∃ y, k ≤ y.id ∧ Calls s.options name b y ∧ Stands new s' y := by
  obtain ⟨rfl, rfl⟩ := (h.mem_bindings hmem).resolve_left hno
  rcases h.imports with ⟨hfn, -⟩ | ⟨-, -, source, c, hc, hstands⟩
  · refine absurd (Lowering.mem_bindings.2 (.inr (.inr ⟨?_, rfl⟩))) hno
    rcases Lowering.mem_bindings.1 hmem with ⟨-, hb⟩ | ⟨-, hb⟩ | ⟨hname, -⟩
    · cases hb
    · cases hb
    · exact hfn.symm.trans hname
  · refine ⟨importCallOf k s source, Nat.le_succ k, ⟨rfl, k, [source], rfl, rfl, .importer⟩, ?_⟩
    rw [calledImporter_eq] at hc
    split at hc
    · obtain rfl := Node.toTree_injective hc
      exact hstands.trans (below_importPauseOf source)
    · obtain rfl := Node.toTree_injective hc
      exact hstands

lemma brings_call (root : Node) (start : Progress State) (name : String) (b : State.Binding) :
    Brings root start (fun s => (name, b) ∈ s.bindings)
      fun y => start.next ≤ y.id ∧ Calls start.state.options name b y := by
  rintro n m m' p q q' - - hs hstart hno hmem
  rw [← hstart.options]
  cases hs with
  | still _ _ hsame =>
    rw [hsame] at hmem
    exact absurd hmem hno
  | operator _ _ hrew =>
    obtain ⟨helper, b', y, rfl, hb, hle, hcalls, hbelow⟩ := hrew.calls
    obtain ⟨rfl, hbinding⟩ := (mem_bindings_use hmem).resolve_left hno
    obtain rfl := Option.some.inj (hb.symm.trans hbinding)
    exact ⟨y, ⟨Nat.le_trans hstart.next hle, hcalls⟩, .inl hbelow⟩
  | declaration hd =>
    obtain ⟨y, hle, hcalls, hstands⟩ := hd.calls hno hmem
    exact ⟨y, ⟨Nat.le_trans hstart.next hle, hcalls⟩, hstands⟩

end Calls

end Overload.Lowering
