import Overload.Compile
import Overload.Proofs.Lowering.Naming
import Overload.Proofs.Tree.Numbering
import Overload.Proofs.Visit.Search

/-! The scope of a compiled program. -/

namespace Overload

open Visit Overload.Tree List

variable {s : State} {options : Options} {n : Node} {t : Tree}

namespace Visit

lemma childKeys_of_identifier (h : n.is "Identifier" = true) : n.childKeys = .ok [] := by
  have hk := Node.is_iff.1 h
  simp only [Node.childKeys, Node.kind?, hk]
  rfl

end Visit

namespace Lowering

def Mentioned (root : Node) (name : String) : Prop := ∃ n, Below root n ∧ Names n name

lemma mentions_iff {name : String} : s.mentions name = true ↔ .str name ∈ s.identifiers := by
  have htext (t : Tree) : t.isText name = true ↔ t = .str name := by
    cases t <;> simp [isText]
  simp [State.mentions, htext]

lemma mentions_identify {t : State} {tree : Tree} (h : s.identify tree = .ok t) (name : String) :
    t.mentions name = true ↔ s.mentions name = true ∨ tree = .str name := by
  obtain rfl := identify_eq_ok h
  rw [mentions_iff, mentions_iff, mem_insertKey]

lemma mentioned_identifier (h : n.is "Identifier" = true) {tree : Tree}
    (ht : n.attr "name" = .ok tree) (name : String) : Mentioned n name ↔ tree = .str name := by
  have hget : n.get? "name" = some tree := by
    unfold Node.attr at ht
    split at ht
    · rw [← Except.ok.inj ht]
      assumption
    · cases ht
  have hbelow (k : Node) : Below n k ↔ k = n := by
    rw [below_iff, slots_of_childKeys (childKeys_of_identifier h)]
    simp [slotsOf]
  simp [Mentioned, hbelow, Names, h, hget]

lemma mentioned_iff (h : n.is "Identifier" = false) (name : String) :
    Mentioned n name ↔ ∃ s ∈ slots n, Mentioned s.child name := by
  constructor
  · rintro ⟨k, hb, hk⟩
    rcases below_iff.1 hb with rfl | ⟨s, hs, hb⟩
    · simp [hk.1] at h
    · exact ⟨s, hs, k, hb, hk⟩
  · rintro ⟨s, hs, k, hb, hk⟩
    exact ⟨k, .head hs hb, hk⟩

def NotesBelow (n : Node) (p : Progress State) (_ : Node) (q : Progress State) : Prop :=
  ∀ name, q.state.mentions name = true ↔ p.state.mentions name = true ∨ Mentioned n name

lemma mentions_of_swept {ss : List Visit.Slot} {m : Node} {p q : Progress State}
    (h : Swept NotesBelow ss n p m q) (name : String) :
    q.state.mentions name = true ↔
      p.state.mentions name = true ∨ ∃ s ∈ ss, Mentioned s.child name := by
  induction h with
  | nil => simp
  | cons _ hs _ ih => rw [ih, hs name, or_assoc, exists_mem_cons_iff]

lemma closed_identifiers (ids : List Tree) : Closed fun p => p.state.identifiers = ids where
  build _ _ h _ := h
  use p h hp := by
    rw [← hp]
    cases h with
    | unary => simp only [State.use, State.useUnary]; split <;> rfl
    | binary => simp only [State.use, State.useBinary]; split <;> rfl
    | importer => simp only [State.use, State.useImport]; split <;> rfl
    | temporary => rfl
  record _ _ h := h
  await _ h := h

lemma notesBelow_finish {m : Node} {p q : Progress State} {place : Place}
    (h : Renewed NotesBelow n p m q) (ho : (finish builtinRules place m q).outcome = .ok ()) :
    NotesBelow n p (finish builtinRules place m q).node
      (finish builtinRules place m q).progress := by
  intro name
  have hkind : m.is "Identifier" = n.is "Identifier" := by rw [Node.is, Node.is, h.kind]
  have hkeys := h.keys
  obtain ⟨keys, hk, -, -, hs⟩ := hkeys
  have hswept := mentions_of_swept hs name
  rw [← slots_of_childKeys hk] at hswept
  rcases finish_progress (closed_identifiers q.state.identifiers) ho rfl with
    ⟨hid, hq⟩ | ⟨tree, s, hid, hname, hs', he⟩
  · rw [mentions_iff, hq, ← mentions_iff, hswept, mentioned_iff (hkind ▸ hid)]
  · have hempty : slotsOf n keys = [] := by
      have := childKeys_of_identifier (hkind ▸ hid)
      rw [Except.ok.inj (hk.symm.trans this)]
      rfl
    rw [hempty] at hs
    cases hs
    rw [he, mentions_identify hs', mentioned_identifier hid hname]

lemma mentions_visit {root : Node} (hl : Lawful root) {place : Place} {p : Progress State}
    (h : (visit builtinRules root place p).outcome = .ok ()) (name : String) :
    (visit builtinRules root place p).progress.state.mentions name = true ↔
      p.state.mentions name = true ∨ Mentioned root name := by
  obtain ⟨m, q, hm, hv⟩ := renewed_root (P := NotesBelow) hl
    (fun n m p q parent key index _ hr ho => notesBelow_finish hr ho) h
  rw [hv] at h ⊢
  exact notesBelow_finish hm h name

lemma ofTree_eq_ok (h : State.ofTree t options = .ok s) : s.options = options ∧ s.exports = [] ∧
      s.identifiers = [] ∧ s.helpers = [] ∧
      ∃ ts, t.names = .ok ts ∧ ∀ name, .str name ∈ ts → name ∈ s.names.taken := by
  unfold State.ofTree at h
  cases hts : t.names with
  | error e => simp [hts] at h
  | ok ts =>
    obtain rfl : _ = s := by simpa [hts] using h
    exact ⟨rfl, rfl, rfl, rfl, ts, rfl, fun name hn => mem_filterMap.2 ⟨_, hn, rfl⟩⟩

lemma hygienic_ofTree (h : State.ofTree t options = .ok s) : Hygienic s.names.taken s [] := by
  obtain ⟨-, -, -, hh, -⟩ := ofTree_eq_ok h
  exact ⟨rfl, .nil, by simp, by simp [hh], by simp [hh], by simp⟩

lemma taken_ofTree {root : Node} (h : State.ofTree root.toTree options = .ok s) {name : String}
    (hm : Mentioned root name) : name ∈ s.names.taken := by
  obtain ⟨-, -, -, -, ts, hts, htaken⟩ := ofTree_eq_ok h
  obtain ⟨n, hb, hn⟩ := hm
  exact htaken name (mem_names hts hb hn)

lemma names_visit {root : Node} (hl : Lawful root) {start : State}
    (hs : State.ofTree root.toTree options = .ok start) {next : Nat}
    (h : (visit builtinRules root ⟨none, "", none⟩ ⟨next, [], start⟩).outcome = .ok ()) :
    (∀ name, (visit builtinRules root ⟨none, "", none⟩
      ⟨next, [], start⟩).progress.state.mentions name = true ↔ Mentioned root name) ∧
    ∃ made, Hygienic start.names.taken
      (visit builtinRules root ⟨none, "", none⟩ ⟨next, [], start⟩).progress.state made := by
  refine ⟨fun name => ?_, ?_⟩
  · obtain ⟨-, -, hids, -⟩ := ofTree_eq_ok hs
    rw [mentions_visit hl h, mentions_iff, hids]
    simp
  · exact visit_keeps (closed_hygienic start.names.taken) (notes_hygienic start.names.taken) hl h
      ⟨[], hygienic_ofTree hs⟩

end Lowering

lemma compile_lowered {globals : Globals} {generator : Generator} {synthesizer : Option Synthesizer}
    {next : Nat} {c : Compiled}
    (h : (compile options globals generator synthesizer t next).result = .ok c) :
    (Lowering.run options t next).outcome = .ok c.state ∧
      c.params = (scopeOf globals c.state).map (·.1) ∧
      c.tree = (Lowering.run options t next).tree ∧
      c.isAsync = (options.isAsync || c.state.hasAwait) := by
  unfold compile at h
  dsimp only at h
  split at h
  · cases h
  · cases h
  · rename_i state code hs hcode
    split at h
    · obtain rfl := Except.ok.inj h
      exact ⟨hs, rfl, rfl, rfl⟩
    · split at h
      · obtain rfl := Except.ok.inj h
        exact ⟨hs, rfl, rfl, rfl⟩
      · cases h

lemma compile_eq_ok {globals : Globals} {generator : Generator} {synthesizer : Option Synthesizer}
    {next : Nat} {c : Compiled}
    (h : (compile options globals generator synthesizer t next).result = .ok c) :
    (Lowering.run options t next).outcome = .ok c.state ∧
      c.params = (scopeOf globals c.state).map (·.1) :=
  have hc := compile_lowered h
  ⟨hc.1, hc.2.1⟩

namespace Lowering

lemma params_eq (globals : Globals) (s : State) :
    (scopeOf globals s).map (·.1) = (globals.map (·.1)).filter s.mentions ++ s.helpers := by
  rw [scopeOf, map_append, map_map, filter_map, ← State.map_bindings]
  rfl

lemma Hygienic.perm {source made : List String} {s : State} (h : Hygienic source s made) :
    ∃ temporaries, made.Perm (s.helpers ++ temporaries) ∧ ∀ name ∈ temporaries, IsTemporary name := by
  refine ⟨made.filter fun name => name ∉ s.helpers, ?_, fun name hname => ?_⟩
  · have hsub : (made.filter fun name => name ∈ s.helpers).Perm s.helpers := by
      refine (perm_ext_iff_of_nodup (h.nodup.filter _) h.helpers_nodup).2 fun name => ?_
      simpa using h.helpers_made name
    exact (filter_append_perm (fun name => decide (name ∈ s.helpers)) made).symm.trans
      (hsub.append (by simp))
  · obtain ⟨hmade, hno⟩ := mem_filter.1 hname
    exact (h.others name hmade).resolve_left (by simpa using hno)

end Lowering

end Overload
