import Overload.Proofs.Lowering.Fixpoint
import Overload.Proofs.Lowering.Scope
import Overload.Proofs.Lowering.Survival

/-! Whether a lowered program awaits something. -/

namespace Overload.Lowering

open Visit State Overload.Tree

variable {s s' : State} {t : Tree}

variable {n m m' y : Node} {p q q' : Progress State} {W : Prop}

section Bringing

lemma Rewritten.hasAwait {keys : List String} {k j : Nat} (h : Rewritten m k s keys t j s') :
    s'.hasAwait = s.hasAwait := by
  have hunary : (s.use .unary).2.hasAwait = s.hasAwait := by
    simp only [use, useUnary]
    split <;> rfl
  have hbinary : (s.use .binary).2.hasAwait = s.hasAwait := by
    simp only [use, useBinary]
    split <;> rfl
  cases h with
  | unary => exact hunary
  | binary | assign | assignThenReturn | returnThenAssign => exact hbinary

lemma waits_of_await (h : n.is "AwaitExpression" = true) : waits n = true := by
  rw [waits, h, Bool.true_or]

lemma sturdy_of_waits (h : waits y = true) : Sturdy y := by
  rcases Bool.or_eq_true_iff.1 h with h | h
  · exact ⟨_, by decide, h⟩
  · exact ⟨_, by decide, (Bool.and_eq_true_iff.1 h).1⟩

lemma brings_await (root : Node) (start : Progress State) :
    Brings root start (fun s => s.hasAwait = true) fun y => waits y = true := by
  intro n m m' p q q' _ _ hs _ hq hq'
  cases hs with
  | still _ _ _ hw =>
    refine ⟨m, ?_, .inl .refl⟩
    rw [hw] at hq'
    simpa [hq] using hq'
  | operator _ _ hrew => exact absurd (hrew.hasAwait.symm.trans hq') hq
  | @declaration new k s hd =>
    rcases hd.imports with ⟨-, hsame⟩ | ⟨-, hawait, source, c, hc, hstands⟩
    · exact absurd (hsame.symm.trans hq') hq
    · have hasync : q.state.importIsAsync = true := by
        rw [hawait] at hq'
        simpa [hq] using hq'
      rw [calledImporter_eq, hasync, if_pos rfl] at hc
      obtain rfl := Node.toTree_injective hc
      exact ⟨_, waits_of_await rfl, hstands⟩

end Bringing

section Noting

structure Noted (W : Prop) (n : Node) : Prop where
  lawful : Lawful n
  waiting : ∀ y, Below n y → waits y = true → W

lemma Noted.of_slots (hl : ∀ keys, n.childKeys = .ok keys → keys.Nodup ∧ "type" ∉ keys)
    (hw : waits n = true → W) (h : ∀ s ∈ slots n, Noted W s.child) : Noted W n where
  lawful y hy := by
    rcases below_iff.1 hy with rfl | ⟨s, hs, hb⟩
    · exact hl
    · exact (h s hs).lawful y hb
  waiting y hy := by
    rcases below_iff.1 hy with rfl | ⟨s, hs, hb⟩
    · exact hw
    · exact (h s hs).waiting y hb

lemma Noted.child (h : Noted W n) {s : Visit.Slot} (hs : s ∈ slots n) : Noted W s.child :=
  ⟨h.lawful.child hs, fun y hy => h.waiting y (.head hs hy)⟩

lemma Noted.renumber (h : Noted W n) (i : Nat) : Noted W { n with id := i } :=
  .of_slots (h.lawful n .refl) (h.waiting n .refl) fun _ => h.child

lemma noted_of_kind (K : Kind) (hk : n.kind = .str K.name) (hw : waits n = true → W)
    (h : ∀ s ∈ slots n, Noted W s.child) : Noted W n := by
  refine .of_slots (fun keys hkeys => ?_) hw h
  rw [childKeys_of_kind K hk] at hkeys
  exact Except.ok.inj hkeys ▸ children_nodup K

lemma grows_noted (k : Nat) (N : Tree → Prop) : Grows k N (Parts (Noted W)) := by
  refine grows_of_slots fun n _ _ hm hcall h => ?_
  have hall : ∀ K ∈ madeKinds, K.name ≠ "ForOfStatement" := by decide
  obtain ⟨K, hK, hk⟩ := hm.kind
  refine noted_of_kind K hk (fun hw => ?_) h
  have hawait : n.is "AwaitExpression" = false := hcall _ (by decide)
  have hloop : n.is "ForOfStatement" = false := by
    rw [Node.is_of_kind hk, beq_eq_false_iff_ne]
    exact hall K hK
  rw [waits, hawait, hloop] at hw
  cases hw

lemma noted_call {callee : Tree} {arguments : List Tree} (hc : Parts (Noted W) callee)
    (ha : ∀ t ∈ arguments, Parts (Noted W) t) (i : Nat) :
    Parts (Noted W) (Build.call callee arguments i).1 := by
  refine parts_node.2 (noted_of_kind .callExpression rfl (fun hw => by cases hw) fun _ =>
    slot_of_parts ?_)
  simp only [List.forall_mem_cons]
  exact ⟨hc, parts_items ha, by simp⟩

lemma noted_await (h : Parts (Noted W) t) (hw : W) (i : Nat) :
    Parts (Noted W) (Build.await t i).1 :=
  parts_node.2 (noted_of_kind .awaitExpression rfl (fun _ => hw) fun _ =>
    slot_of_parts (by simpa using h))

lemma noted_settled {i : Nat} {body : List Tree} {isAsync : Bool}
    (hb : Parts (Noted W) (Build.block body i).1)
    (hx : isAsync = true → ∃ x, Parts (Noted W) x ∧ x.contains "AwaitExpression" = .ok true) :
    Parts (Noted W) (settled i body isAsync) := by
  have harrow (isAsync : Bool) : Noted W (arrowOf i body isAsync) :=
    noted_of_kind .arrowFunctionExpression rfl (fun hw => by cases hw) fun _ => child_of_arrow hb
  have hcall (isAsync : Bool) : Parts (Noted W) (atOnce i body isAsync) :=
    noted_call (parts_toTree.2 (harrow isAsync)) (by simp) _
  unfold settled
  cases isAsync with
  | false => exact hcall false
  | true =>
    obtain ⟨x, hnoted, hcontains⟩ := hx rfl
    refine noted_await (hcall true) ?_ _
    cases hn : x.node? with
    | none => cases x <;> first | cases hcontains | cases hn
    | some c =>
      obtain rfl := toTree_of_node? hn
      rw [parts_toTree] at hnoted
      obtain ⟨y, hy, hawait⟩ := exists_of_contains hnoted.lawful hcontains
      exact hnoted.waiting y hy (waits_of_await hawait)

lemma assembles_noted (k : Nat) (hW : s'.hasAwait = true → W) :
    Assembles s s' k (fun _ => True) (Parts (Noted W)) :=
  assembles_of_calls (grows_noted k _) (fun _ => trivial) (fun hc ha _ => noted_call hc ha _)
    (fun ht hw _ => noted_await ht (hW hw) _) fun _ _ _ _ hb _ hx => noted_settled hb hx

def NotedExports (W : Prop) (s : State) : Prop :=
  ∀ e ∈ s.exports, Parts (Noted W) e.declaration ∧ Parts (Noted W) e.exported

lemma Declared.notedExports {k j : Nat} (h : Declared m k s t j s') (hW : s'.hasAwait = true → W)
    (hm : Gives (fun _ => True) (Parts (Noted W)) m) (hs : NotedExports W s) : NotedExports W s' := by
  intro e he
  rcases h.adds.mem he with hold | hrecorded
  · exact hs e hold
  · refine hrecorded.grown (grows_noted k _) (fun _ => trivial) hm fun source hk hsource => ?_
    obtain ⟨hfn, hawait⟩ := h.calls_exportAll hk
    exact (assembles_noted k hW).importer _ _ (Nat.le_refl k) hfn hawait
      (parts_get? (hm.field .exportAllDeclaration hk _ (by decide)) hsource)

end Noting

section Run

structure Heeds (W : Prop) (p q : Progress State) : Prop where
  mono : p.state.hasAwait = true → q.state.hasAwait = true
  exports : (q.state.hasAwait = true → W) → NotedExports W p.state → NotedExports W q.state

lemma Heeds.trans {r : Progress State} (h : Heeds W p q) (h' : Heeds W q r) : Heeds W p r :=
  ⟨fun hp => h'.mono (h.mono hp), fun hW hp => h'.exports hW (h.exports (fun hq => hW (h'.mono hq)) hp)⟩

def Heeded (W : Prop) (_ : Node) (p : Progress State) (m : Node) (q : Progress State) : Prop :=
  Heeds W p q ∧ ((q.state.hasAwait = true → W) → NotedExports W p.state → Noted W m)

lemma carries_heeded : Carries (Heeded W) (Heeds W) :=
  ⟨fun _ => ⟨id, fun _ => id⟩, .trans, fun h => h.1⟩

lemma noted_slot (hr : Renewed (Heeded W) n p m q) (hW : q.state.hasAwait = true → W)
    (hp : NotedExports W p.state) : ∀ t ∈ slots m, Noted W t.child := by
  intro t ht
  obtain ⟨s, hs, hplace, a, b, ⟨hab, hv⟩, ha, hb⟩ := hr.slot_of_mem carries_heeded ht
  have hWb : b.state.hasAwait = true → W := fun h => hW (hb.mono h)
  exact hv hWb (ha.exports (fun h => hWb (hab.mono h)) hp)

lemma Turned.heeded (hs : Turned m q m' q') (hr : Renewed (Heeded W) n p m q)
    (hf : Formed m) : Heeded W n p m' q' := by
  have hpq := hr.progress carries_heeded
  have hslot := noted_slot hr
  cases hs with
  | @still s _ _ hsim hw =>
    have hmono (h : q.state.hasAwait = true) : s.hasAwait = true := by rw [hw, h, Bool.true_or]
    have hexports : s.exports = q.state.exports := by rw [hsim]
    refine ⟨hpq.trans ⟨hmono, fun _ hq => ?_⟩, fun hW hp => ?_⟩
    · rwa [NotedExports, hexports]
    · refine .of_slots (fun keys hkeys => ?_) (fun hm => hW ?_)
        (hslot (fun h => hW (hmono h)) hp)
      · obtain ⟨keys', hk, hnodup, htype, -⟩ := hr.keys
        obtain rfl : keys' = keys := Except.ok.inj ((hr.childKeys.trans hk).symm.trans hkeys)
        exact ⟨hnodup, htype⟩
      · change s.hasAwait = true
        rw [hw, hm, Bool.or_true]
  | @operator kind keys new k s ho hk hrew =>
    refine ⟨hpq.trans ⟨hrew.hasAwait.trans, fun _ hq => ?_⟩, fun hW hp => ?_⟩
    · rwa [NotedExports, hrew.exports]
    · have hchild := hslot (fun h => hW (hrew.hasAwait.trans h)) hp
      refine parts_toTree.1 (hrew.assembled (assembles_noted _ hW) (fun key hkey => ?_)
        fun _ _ _ _ => trivial)
      exact parts_of_slots (childKeys_of_operands ho hk) hkey hchild
  | @declaration new k s hd =>
    have hmono (h : q.state.hasAwait = true) : s.hasAwait = true := by
      rcases hd.imports with ⟨-, hsame⟩ | ⟨-, hawait, -⟩
      · exact hsame.trans h
      · rw [hawait, h, Bool.true_or]
    have hgives (hW : s.hasAwait = true → W) (hp : NotedExports W p.state) :
        Gives (fun _ => True) (Parts (Noted W)) m := by
      have hchild := hslot (fun h => hW (hmono h)) hp
      exact gives_of_slots hf hchild (fun u hu _ _ _ _ hv => (hchild u hu).child hv)
        fun _ _ => trivial
    refine ⟨⟨fun h => hmono (hpq.mono h), fun hW hp => ?_⟩, fun hW hp => ?_⟩
    · exact hd.notedExports hW (hgives hW hp) (hpq.exports (fun h => hW (hmono h)) hp)
    · exact parts_toTree.1 (hd.assembled (assembles_noted _ hW) (hgives hW hp))

lemma Lowers.heeded (h : Lowers n p m q) (hf : ∀ c, Below n c → Formed c) : Heeded W n p m q := by
  refine h.recursion (P := Heeded W) fun c _ _ _ _ _ hb hr hs _ => ?_
  refine hs.heeded (hr.mono fun _ _ _ _ _ h => h.2) ?_
  exact formed_lowered (hr.mono fun _ _ _ _ _ h => h.1) fun d hd => hf d (hb.trans hd)

lemma noted_visit {root root' : Node} (hl : Lawful root) (hroot : root.is "Program" = true)
    (hf : ∀ c, Below root c → Formed c) (hp : p.state.exports = [])
    (hv : visit builtinRules root ⟨none, "", none⟩ p = ⟨.ok (), root', q⟩) :
    Noted (q.state.hasAwait = true) root' := by
  obtain ⟨m, r, k, hr, hm, hc, rfl⟩ := lowered_program hl hroot hv
  have hr : Renewed (Heeded (r.state.hasAwait = true)) root p m r :=
    hr.mono fun s hmem _ _ _ h => h.heeded fun c hc => hf c (.head hmem hc)
  have hstart : NotedExports (r.state.hasAwait = true) p.state := by simp [NotedExports, hp]
  have hslot := noted_slot hr id hstart
  have hexports := (hr.progress carries_heeded).exports id hstart
  obtain ⟨hblock, hchild⟩ := hc.parts (parts_of_kind .program hm (by decide) hslot) fun _ t _ ht =>
    returned_parts ht (grows_noted _ fun _ => True) fun e he => ⟨(hexports e he).1, (hexports e he).2,
      fun _ n hn j => parts_toTree.2 ((parts_toTree.1 (hn ▸ (hexports e he).2)).renumber j)⟩
  refine noted_of_kind .blockStatement (Node.is_iff.1 hblock) (fun hw => ?_) hchild
  rw [waits_of_kind (Node.is_iff.1 hblock) (by decide)] at hw
  cases hw

end Run

lemma hasAwait_ofTree {options : Options} (h : ofTree t options = .ok s) :
    s.hasAwait = false := by
  unfold ofTree at h
  obtain ⟨names, -, h⟩ := except_bind_eq_ok.1 h
  obtain rfl := Except.ok.inj h
  rfl

lemma hasAwait_iff {options : Options} (hc : options.customRules = []) {root : Node}
    (hl : Lawful root) (hroot : root.is "Program" = true) (hg : ∀ n, Below root n → Grammatical n)
    {next : Nat} (h : (run options root.toTree next).outcome = .ok s) :
    s.hasAwait = true ↔ ∃ n, (run options root.toTree next).tree.Reaches n ∧ waits n = true := by
  obtain ⟨start, root', q, hs, hv, rfl, hrun⟩ := run_eq_ok hc hl h
  obtain ⟨-, hexports, -⟩ := ofTree_eq_ok hs
  rw [hrun]
  constructor
  · intro hawait
    obtain ⟨y, hy, hb⟩ := survives (brings_await root _) (fun _ => sturdy_of_waits) hl hroot hg hv
      (by simp [hasAwait_ofTree hs]) hawait
    exact ⟨y, ⟨root', rfl, hb⟩, hy⟩
  · rintro ⟨y, ⟨n, hn, hb⟩, hy⟩
    obtain rfl := Node.toTree_injective hn
    exact (noted_visit hl hroot (fun c hc => (hg c hc).formed) hexports hv).waiting y hb hy

/-- In a program of the grammar, the state of the lowering says that something is awaited just if an
await or a loop that awaits can be reached in the lowered tree. What is compiled is asynchronous if
that is so or the options ask for it. -/
theorem async_flag_matches_tree (d : Json) (k : Nat) {root : Node}
    (hroot : (Tree.ofData d k).1 = root.toTree) (hprogram : root.is "Program" = true)
    (hg : ∀ n, Below root n → Grammatical n) (options : Options) (hc : options.customRules = [])
    (next : Nat) :
    (∀ s, (run options root.toTree next).outcome = .ok s → (s.hasAwait = true ↔
      ∃ n, (run options root.toTree next).tree.Reaches n ∧ waits n = true)) ∧
    ∀ globals generator synthesizer c,
      (compile options globals generator synthesizer root.toTree next).result = .ok c →
      (c.isAsync = true ↔ options.isAsync = true ∨ ∃ n, c.tree.Reaches n ∧ waits n = true) := by
  have hl := d.lawful hroot
  refine ⟨fun s h => hasAwait_iff hc hl hprogram hg h, fun globals generator synthesizer c h => ?_⟩
  obtain ⟨hrun, -, htree, hasync⟩ := compile_lowered h
  rw [hasync, Bool.or_eq_true, htree, hasAwait_iff hc hl hprogram hg hrun]

def wakeful : Data :=
  let name (s : String) : Data := .object [("type", .str "Identifier"), ("name", .str s)]
  .object [("type", .str "Program"), ("body", .list [
    .object [("type", .str "ForOfStatement"), ("await", .bool true), ("left", name "x"),
      ("right", name "y"), ("body",
        .object [("type", .str "ExpressionStatement"), ("expression",
          .object [("type", .str "AssignmentExpression"), ("operator", .str "+="),
            ("left", name "x"), ("right",
              .object [("type", .str "AwaitExpression"), ("argument", name "z")])])])],
    .object [("type", .str "ExportAllDeclaration"), ("exported", .null),
      ("source", .object [("type", .str "Literal"), ("value", .str "m")])]])]

def wakefulRoot : Node := (ofData wakeful 0).1.node?.getD ⟨0, .null, []⟩

def wakefulOptions : Options := { Options.default with importer := some .coroutine }

theorem async_flag_matches_tree_wakeful : ∃ s c,
    (run wakefulOptions wakefulRoot.toTree 20).outcome = .ok s ∧ s.hasAwait = true ∧
    (compile wakefulOptions [] .kind none wakefulRoot.toTree 20).result = .ok c ∧
    c.isAsync = true ∧ ∃ n, c.tree.Reaches n ∧ waits n = true := by
  have hrun : ((run wakefulOptions wakefulRoot.toTree 20).outcome.toOption.map
      fun s => s.hasAwait) = some true := by decide +kernel
  have hcompile : (compile wakefulOptions [] .kind none wakefulRoot.toTree
      20).result.toOption.isSome = true := by decide +kernel
  have hgrammar : Every Grammatical (ofData wakeful 0).1 := by decide +kernel
  have hroot : (ofData wakeful 0).1 = wakefulRoot.toTree := rfl
  obtain ⟨hstate, hcompiled⟩ := async_flag_matches_tree ⟨wakeful, by decide +kernel⟩ 0 hroot
    (by decide +kernel) (fun n hn => hgrammar.reaches ⟨_, hroot, hn⟩) wakefulOptions rfl 20
  cases hs : (run wakefulOptions wakefulRoot.toTree 20).outcome with
  | error e => simp [hs, Except.toOption] at hrun
  | ok s =>
    have hawait : s.hasAwait = true := by simpa [hs, Except.toOption] using hrun
    cases hc : (compile wakefulOptions [] .kind none wakefulRoot.toTree 20).result with
    | error e => simp [hc, Except.toOption] at hcompile
    | ok c =>
      obtain ⟨-, -, htree, -⟩ := compile_lowered hc
      have hwaits := htree ▸ (hstate s hs).1 hawait
      exact ⟨s, c, rfl, hawait, rfl, (hcompiled _ _ _ c hc).2 (.inr hwaits), hwaits⟩

end Overload.Lowering
