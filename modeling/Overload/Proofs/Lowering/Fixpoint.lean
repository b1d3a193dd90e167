import Overload.Proofs.Lowering.Done
import Overload.Proofs.Lowering.Scope
import Overload.Proofs.Lowering.Visits

/-!
One lowering does everything: the rules have nothing left to do below any node that it leaves, so a
second lowering changes nothing.
-/

namespace Overload.Lowering

open Visit Overload.Tree

variable {p q : Progress State}

variable {options : Options} {n m : Node}

structure Fit (options : Options) (p : Progress State) : Prop where
  same : p.state.options = options
  exports : DoneExports options p.state

structure Arrives (options : Options) (n : Node) (p : Progress State) (m : Node)
    (q : Progress State) : Prop where
  kind : ∀ kind ∉ dissolved, n.is kind = true → m.is kind = true
  done : Fit options p → Fit options q ∧ Done options m

lemma carries_arrives :
    Carries (Arrives options) fun p q => Fit options p → Fit options q where
  refl _ := id
  trans h h' hp := h' (h hp)
  of_visit h hp := (h.done hp).1

section Renewed

variable (hr : Renewed (Arrives options) n p m q)
include hr

lemma formed_renewed (hf : Formed n) : Formed m := by
  refine ⟨fun hm => ?_, fun shape hmem hm => ?_⟩
  · rw [hr.is] at hm
    rw [hr.get? (childKeys_of_kind .identifier (Node.is_iff.1 hm)) (by decide)]
    exact hf.name hm
  · rw [hr.is] at hm
    have hall : ∀ shape ∈ shapes, shape.key ∈ shape.kind.children ∧
        ∀ kind ∈ shape.kinds, kind ∉ dissolved := by decide
    obtain ⟨hkey, hkinds⟩ := hall shape hmem
    refine hr.parts carries_arrives (childKeys_of_kind shape.kind (Node.is_iff.1 hm)) hkey
      (hf.shape shape hmem hm) ?_
    rintro c a d b hv - - ⟨kind, hk, hc⟩
    exact ⟨kind, hk, hv.kind kind (hkinds kind hk) hc⟩

lemma done_slot (hp : Fit options p) {t : Visit.Slot} (ht : t ∈ slots m) :
    Done options t.child := by
  obtain ⟨s, -, -, a, b, hv, ha, -⟩ := hr.slot_of_mem carries_arrives ht
  exact (hv.done (ha hp)).2

omit hr in
lemma Similar.fit {s : State} (hq : Fit options q) (h : Similar q.state s) :
    Fit options { q with state := s } := by
  rw [Similar] at h
  refine ⟨by rw [h]; exact hq.same, ?_⟩
  rw [DoneExports, h]
  exact hq.exports

lemma Turned.done (hf : Formed n) (hp : Fit options p) {m' : Node} {q' : Progress State}
    (h : Turned m q m' q') (he : Extends q q') : Fit options q' ∧ Done options m' ∧
      (m.is "Program" = false → m'.is "Program" = false) := by
  have hq := hr.progress carries_arrives hp
  have hfm := formed_renewed hr hf
  have hslot : ∀ t ∈ slots m, Done options t.child := fun t => done_slot hr hp
  have hkind {kind : String} (hk : m'.kind = .str kind) (hne : kind ∉ ["Program"]) :
      m'.is "Program" = false := is_other hk hne _ (List.mem_singleton_self _)
  cases h with
  | still hstill hplain hsim =>
    obtain ⟨keys, hkeys, hnodup, htype, -⟩ := hr.keys
    refine ⟨hsim.fit hq, .of_slots ⟨hq.same ▸ hstill, ?_, hplain, hfm⟩ hslot, id⟩
    exact ⟨keys, hr.childKeys.trans hkeys, hnodup, htype⟩
  | @operator kind keys new k s ho hk hrew =>
    have hchildren : ∀ e ∈ operands, ∃ K : Kind, K.name = e.1 ∧ ∀ key ∈ e.2, key ∈ K.children := by
      simp only [operands, List.forall_mem_cons]
      exact ⟨⟨.unaryExpression, rfl, by decide⟩, ⟨.binaryExpression, rfl, by decide⟩,
        ⟨.logicalExpression, rfl, by decide⟩, ⟨.updateExpression, rfl, by decide⟩,
        ⟨.assignmentExpression, rfl, by decide⟩, by simp⟩
    obtain ⟨K, rfl, hK⟩ := hchildren _ ho
    have hfield (key : String) (hkey : key ∈ keys) : Parts (Done options) (m.get key) :=
      parts_of_kind K hk (hK key hkey) hslot
    have hnew := hrew.parts (builds_done _) hfield fun key hkey _ hn => hn.isText (hfield key hkey)
    obtain ⟨kind, hmem, hnk⟩ := hrew.kind
    have hne : ∀ kind ∈ operatorResults, kind ∉ ["Program"] := by decide
    have hexports : DoneExports options s := by
      rw [DoneExports, hrew.exports]
      exact hq.exports
    exact ⟨⟨he.options.trans hq.same, hexports⟩, parts_toTree.1 hnew,
      fun _ => hkind hnk (hne kind hmem)⟩
  | declaration hd =>
    have hgives := gives_done hslot hfm
    obtain ⟨kind, hmem, hnk⟩ := hd.kind_result
    have hne : ∀ kind ∈ moduleResults, kind ∉ ["Program"] := by decide
    exact ⟨⟨he.options.trans hq.same, hd.doneExports hgives hq.exports⟩,
      parts_toTree.1 (hd.parts (builds_done _) hgives), fun _ => hkind hnk (hne kind hmem)⟩

lemma arrives_step (hf : Formed n) {m' : Node} {q' : Progress State} (h : Turned m q m' q')
    (he : Extends q q') : Arrives options n p m' q' where
  kind kind hk hn := by
    have hm : m.kind = .str kind := hr.kind.trans (Node.is_iff.1 hn)
    obtain rfl := h.same (is_other hm hk)
    exact Node.is_iff.2 hm
  done hp := by
    obtain ⟨hq, hdone, -⟩ := h.done hr hf hp he
    exact ⟨hq, hdone⟩

end Renewed

lemma Lowers.arrives (h : Lowers n p m q) (hf : ∀ c, Below n c → Formed c) :
    Arrives options n p m q :=
  h.induction fun c _ _ _ _ _ hb hr hs he => arrives_step hr (hf c hb) hs he

lemma formed_lowered (h : Renewed Lowers n p m q) (hf : ∀ c, Below n c → Formed c) : Formed m := by
  have hr : Renewed (Arrives default) n p m q :=
    h.mono fun _ hs _ _ _ h => h.arrives fun c hc => hf c (.head hs hc)
  exact formed_renewed hr (hf n .refl)

lemma done_visit {root : Node} (hl : Lawful root) (hf : ∀ n, Below root n → Formed n)
    (hp : Fit options p) (hv : visit builtinRules root ⟨none, "", none⟩ p = ⟨.ok (), m, q⟩) :
    Done options m ∧ m.is "Program" = false := by
  obtain ⟨m', q', hr, hs, he⟩ := lowered_step hl hv
  have hr' : Renewed (Arrives options) root p m' q' :=
    hr.mono fun s hs _ _ _ h => Lowers.arrives h fun c hb => hf c (.head hs hb)
  cases hs with
  | turned ht hroot =>
    obtain ⟨-, hdone, hnot⟩ := ht.done hr' (hf root .refl) hp he
    exact ⟨hdone.renumber m'.id, hnot (hroot rfl)⟩
  | program _ hk hcloses =>
    exact hcloses.done (parts_of_kind .program hk (by decide) fun t => done_slot hr' hp)
      (hr'.progress carries_arrives hp).exports

lemma visit_of_done {n : Node} (h : Done options n) (place : Place)
    (hroot : place.parent = none → n.is "Program" = false) (hp : p.state.options = options) :
    ∃ s, visit builtinRules n place p =
      ⟨.ok (), n, { p with state := s }⟩ ∧ Similar p.state s := by
  induction hs : n.toTree.size using Nat.strongRecOn generalizing n place p with
  | ind size ih =>
    obtain ⟨keys, hk, hn, ht⟩ := h.rests.keys
    let I (q : Progress State) := ∃ s, q = { p with state := s } ∧ Similar p.state s
    have hslots : ∀ s ∈ slots n, ∀ m q, Held m s → I q →
        (visitSlot builtinRules s m q).outcome = .ok () ∧
        I (visitSlot builtinRules s m q).progress ∧
        (visitSlot builtinRules s m q).node = s.child := by
      rintro s hmem m q - ⟨u, rfl, hu⟩
      have hsize : s.child.toTree.size < size := by
        rw [slots_of_childKeys hk] at hmem
        exact hs ▸ size_child_lt hmem
      obtain ⟨v, hv, hsim⟩ := ih _ hsize (h.child hmem) ⟨some m, s.key, s.index⟩
        nofun (p := { p with state := u }) (by rw [← hp, hu]) rfl
      rw [visitSlot, hv]
      exact ⟨rfl, ⟨v, rfl, hu.trans hsim⟩, rfl⟩
    obtain ⟨m, q, hr, ⟨u, rfl, hu⟩, hv⟩ := renewed_of_visits (P := fun c _ d _ => d = c) hk hn ht
      (⟨p.state, rfl, .refl _⟩ : I p) hslots
    obtain ⟨-, rfl⟩ := (hr.mono fun _ _ _ _ _ h _ => ⟨⟨⟩, h⟩).keeps (I := fun _ => True) ⟨⟩
    obtain ⟨v, hfinish, hsim⟩ := h.rests.still m place { p with state := u } (fun _ => rfl)
      (by rw [← hp, hu]) hroot
    exact ⟨v, (hv place).trans hfinish, hu.trans hsim⟩

lemma Done.lawful (h : Done options n) : Lawful n := by
  intro m hb keys hk
  obtain ⟨keys', hk', hn, ht⟩ := (h m hb).keys
  obtain rfl : keys' = keys := Except.ok.inj (hk'.symm.trans hk)
  exact ⟨hn, ht⟩

lemma ofTree_of_formed (h : ∀ m, Below n m →
    (∃ keys, m.childKeys = .ok keys ∧ "type" ∉ keys) ∧ Formed m) (options : Options) :
    ∃ s, State.ofTree n.toTree options = .ok s := by
  obtain ⟨ts, hts⟩ := names_eq_ok fun m hb => by
    obtain ⟨hkeys, hf⟩ := h m hb
    refine ⟨hkeys, ?_⟩
    unfold ownName
    split
    · rename_i his
      obtain ⟨s, hs⟩ := hf.name his
      exact ⟨[.str s], by simp [Node.attr, hs, key, isKey]⟩
    · exact ⟨[], rfl⟩
  exact ⟨_, by simp [State.ofTree, hts]; rfl⟩

lemma Done.ofTree (h : Done options n) (options' : Options) :
    ∃ s, State.ofTree n.toTree options' = .ok s := by
  refine ofTree_of_formed (fun m hb => ?_) options'
  obtain ⟨keys, hk, -, ht⟩ := (h m hb).keys
  exact ⟨⟨keys, hk, ht⟩, (h m hb).formed⟩

lemma run_of_done (hc : options.customRules = []) (h : Done options n)
    (hroot : n.is "Program" = false) (next : Nat) : ∃ s,
      run options n.toTree next = ⟨.ok s, n.toTree, next, []⟩ ∧ s.exports = [] ∧ s.helpers = [] := by
  obtain ⟨s, hs⟩ := h.ofTree options
  obtain ⟨ho, he, -, hh, -⟩ := ofTree_eq_ok hs
  obtain ⟨u, hv, hsim⟩ := visit_of_done h ⟨none, "", none⟩ (fun _ => hroot)
    (p := ⟨next, [], s⟩) ho
  refine ⟨u, ?_, ?_, ?_⟩
  · rw [run_eq hc h.lawful hs, hv]
    rfl
  · rw [hsim]
    exact he
  · rw [hsim]
    exact hh

def entangled : Data :=
  let name (s : String) : Data := .object [("type", .str "Identifier"), ("name", .str s)]
  .object [("type", .str "Program"), ("body", .list [
    .object [("type", .str "ImportDeclaration"), ("specifiers", .list [
        .object [("type", .str "ImportNamespaceSpecifier"), ("local", name "m")]]),
      ("source", .object [("type", .str "Literal"), ("value", .str "m")])],
    .object [("type", .str "ExportNamedDeclaration"), ("declaration",
      .object [("type", .str "VariableDeclaration"), ("kind", .str "const"), ("declarations", .list [
        .object [("type", .str "VariableDeclarator"), ("id",
          .object [("type", .str "ObjectPattern"), ("properties", .list [
            .object [("type", .str "Property"), ("key", name "a"), ("value",
              .object [("type", .str "AssignmentPattern"), ("left", name "a"), ("right",
                .object [("type", .str "BinaryExpression"), ("operator", .str "+"),
                  ("left", name "m"),
                  ("right", .object [("type", .str "Literal"), ("value", .num (.int 1))])])])],
            .object [("type", .str "RestElement"), ("argument", name "b")]])]),
          ("init", name "m")]])]), ("specifiers", .list []), ("source", .null)],
    .object [("type", .str "ExportDefaultDeclaration"), ("declaration",
      .object [("type", .str "AssignmentExpression"), ("operator", .str "+="), ("left", name "x"),
        ("right", .object [("type", .str "UnaryExpression"), ("operator", .str "-"),
          ("argument", name "y")])])]])]

/-- Exports `-x` in a specifier of another kind, which the rules do not look into. -/
def misnamedSpecifier : Data :=
  let name (s : String) : Data := .object [("type", .str "Identifier"), ("name", .str s)]
  .object [("type", .str "Program"), ("body", .list [
    .object [("type", .str "ExportNamedDeclaration"), ("declaration", .null), ("specifiers", .list [
        .object [("type", .str "Literal"), ("local",
            .object [("type", .str "UnaryExpression"), ("operator", .str "-"),
              ("prefix", .bool true), ("argument", name "x")]), ("exported", name "y")]]),
      ("source", .null)]])]

end Overload.Lowering
