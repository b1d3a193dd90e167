import Overload.Proofs.Lowering.Fixpoint
import Overload.Proofs.Lowering.Scope
import Overload.Proofs.Lowering.Survival

/-! Names that rules copy and names that they make up. -/

namespace Overload.Lowering

open Visit List Build

variable {name : String} {c : Node} {e : Export}

variable {n m root : Node} {p q : Progress State} {k j : Nat} {s s' : State} {t : Tree}

section Origin

def replacements : List String := operatorResults ++ ["VariableDeclaration", "EmptyStatement"]

lemma Declared.replaces {new : Node} (h : Declared m k s new.toTree j s') :
    (∃ kind ∈ replacements, new.is kind = true) ∨ ∃ K : Kind, m.is K.name = true ∧
      "declaration" ∈ K.children ∧ m.get? "declaration" = some new.toTree := by
  generalize ht : new.toTree = t at h
  have hkind {kind : String} {i : Nat} {fields : List (String × Tree)}
      (hn : new.toTree = .node i (.str kind) fields) : new.is kind = true := by
    obtain rfl : new = ⟨i, .str kind, fields⟩ := Node.toTree_injective hn
    exact Node.is_iff.2 rfl
  cases h with
  | importAll | importNames | exportFrom =>
    exact .inl ⟨"VariableDeclaration", by decide, hkind ht⟩
  | exportLocals | exportDefaultValue | exportAll =>
    exact .inl ⟨"EmptyStatement", by decide, hkind ht⟩
  | exportDeclared hk =>
    refine .inr ⟨.exportNamedDeclaration, hk, by decide, Node.get?_of_get rfl ?_⟩
    simp [← ht, Node.toTree]
  | exportDefaultName hk hd => exact .inr ⟨.exportDefaultDeclaration, hk, by decide, hd⟩

theorem Lowers.origin (h : Lowers n p m q) (K : Kind) (hK : K.name ∉ replacements)
    (hm : m.is K.name = true) : ∃ c a b, Below n c ∧ c.is K.name = true ∧ Renewed Lowers c a m b := by
  refine h.recursion (P := fun n _ m _ => m.is K.name = true →
      ∃ c a b, Below n c ∧ c.is K.name = true ∧ Renewed Lowers c a m b)
    (fun n m p q m' q' _ hr hs _ hm => ?_) hm
  have hother {kind : String} {c : Node} (hmem : kind ∈ replacements) (hc : c.is kind = true)
      (hK' : c.is K.name = true) : False := is_unique hc hK' fun h => hK (h ▸ hmem)
  cases hs with
  | still =>
    exact ⟨n, p, q, .refl, hr.is _ ▸ hm, hr.mono fun _ _ _ _ _ h => h.1⟩
  | operator _ _ hrew =>
    obtain ⟨kind, hmem, hk⟩ := hrew.kind
    exact (hother (mem_append_left _ hmem) (Node.is_iff.2 hk) hm).elim
  | declaration hd =>
    rcases hd.replaces with ⟨kind, hmem, hk⟩ | ⟨L, hL, hkey, hget⟩
    · exact (hother hmem hk hm).elim
    · have hslot := slot_of_get? (childKeys_of_kind L (Node.is_iff.1 hL)) hkey hget
      obtain ⟨u, hu, -, a, b, ⟨-, hv⟩, -⟩ := hr.slot_of_mem (R := Extends)
        ⟨.refl, .trans, fun h => h.1.extends⟩ hslot
      obtain ⟨c, a, b, hb, hc⟩ := hv hm
      exact ⟨c, a, b, .head hu hb, hc⟩

lemma Lowers.identifier (h : Lowers n p m q) (hm : m.is "Identifier" = true) : Below n m := by
  obtain ⟨c, a, b, hb, hc, hr⟩ := h.origin .identifier (by decide) hm
  rwa [lowered_leaf hr .identifier hc rfl]

end Origin

section Copies

def LoweredFrom (root c : Node) : Prop := ∃ n p q, Below root n ∧ Lowers n p c q

def Copied (root : Node) (name : Tree) : Prop := ∃ text, name = .str text ∧ Mentioned root text

lemma LoweredFrom.identifier {c : Node} (h : LoweredFrom root c) (hc : c.is "Identifier" = true) :
    Below root c := by
  obtain ⟨n, p, q, hb, hl⟩ := h
  exact hb.trans (hl.identifier hc)

variable (hg : ∀ c, Below root c → Grammatical c)
include hg

lemma named_below (hb : Below root c) (hc : c.is "Identifier" = true) :
    ∃ name, Names c name ∧ Mentioned root name := by
  obtain ⟨name, hname⟩ := (hg c hb).formed.name hc
  exact ⟨name, ⟨hc, hname⟩, c, hb, hc, hname⟩

lemma bequeaths_lowered (hb : Below root n) (hr : Renewed Lowers n p m q) :
    Bequeaths (LoweredFrom root) m := by
  refine ⟨formed_lowered hr fun c hc => (hg c (hb.trans hc)).formed, fun t ht => ?_⟩
  obtain ⟨s, hs, -, a, b, hv, -⟩ := hr.slot_of_mem carries_lowers ht
  exact ⟨s.child, a, b, .child hb hs, hv⟩

lemma LoweredFrom.bequeaths (h : LoweredFrom root c) (K : Kind) (hK : K.name ∉ replacements)
    (hk : c.is K.name = true) : Bequeaths (LoweredFrom root) c := by
  obtain ⟨n, p, q, hb, hl⟩ := h
  obtain ⟨d, a, b, hd, -, hr⟩ := hl.origin K hK hk
  exact bequeaths_lowered hg (hb.trans hd) hr

lemma inherited_lowered : Inherited (LoweredFrom root) := by
  have hall : ∀ K ∈ bindingKinds, K.name ∉ replacements := by decide
  exact fun c hc K hK hk => hc.bequeaths hg K (hall K hK) hk

lemma LoweredFrom.copied {name : Tree} (h : LoweredFrom root c) (hc : c.is "Identifier" = true)
    (hname : c.get? "name" = some name) : Copied root name := by
  obtain ⟨text, htext, hm⟩ := named_below hg (h.identifier hc) hc
  exact ⟨text, Option.some.inj (hname.symm.trans htext.2), hm⟩

lemma bequeaths_exported (hb : Below root n) (hr : Renewed Lowers n p m q)
    (hk : m.is "ExportNamedDeclaration" = true) {u : Visit.Slot} (hu : u ∈ slots m) :
    Bequeaths (LoweredFrom root) u.child := by
  have hkeys : ∀ key ∈ Kind.exportNamedDeclaration.children, ∃ shape ∈ shapes ++ moduleShapes,
      shape.kind = .exportNamedDeclaration ∧ shape.key = key ∧
        ∀ kind ∈ shape.kinds, kind ∉ dissolved := by decide
  obtain ⟨s, hs, -, a, b, hv, -⟩ := hr.slot_of_mem carries_lowers hu
  have hn : n.is "ExportNamedDeclaration" = true := by rwa [Node.is, ← hr.kind]
  have hkey := ((mem_slots_iff (childKeys_of_kind .exportNamedDeclaration (Node.is_iff.1 hn))).1 hs).1
  obtain ⟨shape, hmem, hshape, hsk, hkinds⟩ := hkeys s.key hkey
  obtain ⟨kind, hkind, hc⟩ := (hg n hb).parts hmem (by rwa [hshape]) hs hsk.symm
  obtain ⟨b', hr'⟩ := hv.renewed (is_other (Node.is_iff.1 hc) (hkinds kind hkind))
  exact bequeaths_lowered hg (.child hb hs) hr'

lemma Mentions.copied {name : Tree} (h : Mentions m name) (hb : Below root n)
    (hr : Renewed Lowers n p m q) : Copied root name := by
  obtain ⟨c, hc, his, hname⟩ := h.identifier (inherited_lowered hg)
    (bequeaths_lowered hg hb hr).child fun hk _ hu => bequeaths_exported hg hb hr hk hu
  exact hc.copied hg his hname

lemma NameIn.copied {key kind : String} {keys : List String} {name : Tree} (h : NameIn m key name)
    (ho : (kind, keys) ∈ operands) (hk : m.is kind = true) (hkey : key ∈ keys) (hb : Below root n)
    (hr : Renewed Lowers n p m q) : Copied root name := by
  obtain ⟨c, hc, his, hname⟩ := h
  have hslot := slot_of_get? (childKeys_of_operands ho hk) hkey hc
  exact ((bequeaths_lowered hg hb hr).child _ hslot).copied hg his hname

lemma gives_lowered (hb : Below root n) (hr : Renewed Lowers n p m q) :
    Gives (Copied root) (Parts (LoweredFrom root)) m := by
  have hall : ∀ K ∈ donors, K.name ∉ replacements := by decide
  have hm := bequeaths_lowered hg hb hr
  exact gives_of_slots hm.formed hm.child
    (fun u hu K hK hk v hv => ((hm.child u hu).bequeaths hg K (hall K hK) hk).child v hv)
    fun name hname => hname.copied hg hb hr

end Copies

section Reserving

def title? (t : Tree) : Option String :=
  match t.node? with
  | some n => if n.is "Identifier" then
      match n.get? "name" with
      | some (.str name) => some name
      | _ => none
    else none
  | none => none

lemma title?_eq_some : title? t = some name ↔ ∃ c : Node, t = c.toTree ∧ Names c name := by
  constructor
  · intro h
    unfold title? at h
    split at h
    · rename_i c hc
      split at h
      · rename_i hi
        split at h
        · rename_i hname
          exact ⟨c, (Tree.toTree_of_node? hc).symm, hi, Option.some.inj h ▸ hname⟩
        · cases h
      · cases h
    · cases h
  · rintro ⟨c, rfl, hi, hname⟩
    simp [title?, Tree.node?_toTree, hi, hname]

def temporaries (source : List String) (exports : List Export) : List String :=
  (exports.filterMap fun e => title? e.declaration).filter (· ∉ source)

structure Reserved (source : List String) (s : State) : Prop where
  aside : SetAside source (temporaries source s.exports) s
  temporary : ∀ name ∈ temporaries source s.exports, IsTemporary name

variable {source : List String}

lemma temporaries_append (es fs : List Export) :
    temporaries source (es ++ fs) = temporaries source es ++ temporaries source fs := by
  simp [temporaries]

lemma Reserved.use (hs : Reserved source s) (h : Helper) : Reserved source (s.use h).2 := by
  constructor <;> rw [exports_use]
  · exact hs.aside.use h
  · exact hs.temporary

lemma Reserved.add (hs : Reserved source s) (hn : s'.names = s.names) (hh : s'.helpers = s.helpers)
    {es : List Export} (he : s'.exports = s.exports ++ es)
    (hall : ∀ e ∈ es, ∀ name, title? e.declaration = some name → name ∈ source) :
    Reserved source s' := by
  have hnone : temporaries source es = [] := by
    simp only [temporaries, filter_eq_nil_iff, mem_filterMap]
    rintro name ⟨e, hmem, ht⟩
    simpa using hall e hmem name ht
  have hsame : temporaries source s'.exports = temporaries source s.exports := by
    rw [he, temporaries_append, hnone, append_nil]
  constructor <;> rw [hsame]
  · exact hs.aside.congr hn hh
  · exact hs.temporary

lemma Reserved.passed (hs : Reserved source s) (i : Nat) (exported : Tree) :
    Reserved source ((s.use .temporary).2.record
      ⟨(identifier (.str (s.use .temporary).1) i).1, exported, false⟩) := by
  have haside := hs.aside.temporary
  have hnew : (s.use .temporary).1 ∉ source := (haside.apart _ (by simp)).2
  have hexports : temporaries source ((s.use .temporary).2.record
      ⟨(identifier (.str (s.use .temporary).1) i).1, exported, false⟩).exports =
        temporaries source s.exports ++ [(s.use .temporary).1] := by
    have htitle : title? (identifier (.str (s.use .temporary).1) i).1 =
        some (s.use .temporary).1 := title?_eq_some.2 ⟨⟨i, _, _⟩, rfl, rfl, rfl⟩
    rw [show State.exports _ = s.exports ++ [_] from rfl, temporaries_append]
    simp [temporaries, htitle, hnew]
  constructor <;> rw [hexports]
  · exact haside.congr rfl rfl
  · intro name hname
    rcases mem_append.1 hname with hname | hname
    · exact hs.temporary name hname
    · exact mem_singleton.1 hname ▸ s.names.fresh_cases State.temporaryBase

lemma PassesOn.reserved {xs ps : List Tree} (h : PassesOn xs k s ps j s') (hs : Reserved source s) :
    Reserved source s' := by
  induction h with
  | nil => exact hs
  | cons _ _ _ ih => exact ih (hs.passed _ _)

/-- Every name that is taken is one of the program, the name of a helper, or a name under which
something is exported. -/
def NamesOwned (source : List String) (s : State) : Prop :=
  ∀ name ∈ s.names.taken, name ∈ source ∨ name ∈ s.helpers ∨
    ∃ e ∈ s.exports, title? e.declaration = some name

lemma NamesOwned.mono (hs : NamesOwned source s) (hn : s'.names = s.names)
    (hh : s'.helpers = s.helpers) (he : s.exports ⊆ s'.exports) : NamesOwned source s' := by
  intro name hname
  rw [hn] at hname
  rw [hh]
  exact (hs name hname).imp_right (.imp_right fun ⟨e, hmem, ht⟩ => ⟨e, he hmem, ht⟩)

lemma NamesOwned.use (hs : NamesOwned source s) {h : Helper} (hne : h ≠ .temporary) :
    NamesOwned source (s.use h).2 := by
  have hexports : s.exports ⊆ (s.use h).2.exports := by rw [exports_use]; exact Subset.refl _
  rcases use_cases s h with ⟨hn, hh⟩ | ⟨base, hn, hperm | ⟨-, he, -⟩⟩
  · exact hs.mono hn hh hexports
  · intro name hname
    rw [hn, Supply.taken_fresh] at hname
    rw [hperm.mem_iff, exports_use]
    rcases mem_cons.1 hname with rfl | hname
    · exact .inr (.inl mem_cons_self)
    · exact (hs name hname).imp_right (.imp_left (mem_cons_of_mem _))
  · exact absurd he hne

lemma NamesOwned.passed (hs : NamesOwned source s) (i : Nat) (exported : Tree) :
    NamesOwned source ((s.use .temporary).2.record
      ⟨(identifier (.str (s.use .temporary).1) i).1, exported, false⟩) := by
  intro name hname
  rcases mem_cons.1 (s.names.taken_fresh State.temporaryBase ▸ hname) with rfl | hname
  · exact .inr (.inr ⟨_, mem_append_right _ (mem_singleton_self _),
      title?_eq_some.2 ⟨⟨i, _, _⟩, rfl, rfl, rfl⟩⟩)
  · exact (hs name hname).imp_right
      (.imp_right fun ⟨e, he, ht⟩ => ⟨e, mem_append_left _ he, ht⟩)

lemma PassesOn.owned {xs ps : List Tree} (h : PassesOn xs k s ps j s')
    (hs : NamesOwned source s) : NamesOwned source s' := by
  induction h with
  | nil => exact hs
  | cons _ _ _ ih => exact ih (hs.passed _ _)

lemma Declared.cases (h : Declared m k s t j s') :
    (∃ xs ps i source, s.options.returnsExports = true ∧
        PassesOn xs (importerEnd k s) (s.use .importer).2 ps i s' ∧
        t = constantOf (i + 1) (objectPattern ps i).1 (calledImporter k s source)) ∨
      (m.is "ExportNamedDeclaration" = true → (m.get "source").isNull = true) ∧
        ∃ u, (u = s ∨ u = (s.use .importer).2) ∧ s' = { u with exports := s'.exports } := by
  have hother {K : String} (hk : m.is K = true) (hne : K ≠ "ExportNamedDeclaration") :
      m.is "ExportNamedDeclaration" = true → (m.get "source").isNull = true :=
    fun he => (is_unique hk he hne).elim
  cases h with
  | importAll hk | importNames hk | exportAll hk =>
    exact .inr ⟨hother hk (by decide), _, .inr rfl, rfl⟩
  | exportFrom _ _ _ _ _ hps hreturns => exact .inl ⟨_, _, _, _, hreturns, hps, rfl⟩
  | exportDeclared _ hnull _ _ hexports | exportLocals _ hnull _ _ hexports =>
    exact .inr ⟨fun _ => hnull, s, .inl rfl, hexports.same⟩
  | exportDefaultName hk | exportDefaultValue hk =>
    exact .inr ⟨hother hk (by decide), s, .inl rfl, rfl⟩

lemma Declared.owned (h : Declared m k s t j s') (hs : NamesOwned source s) :
    NamesOwned source s' := by
  have himporter : NamesOwned source (s.use .importer).2 := hs.use (by decide)
  rcases h.cases with ⟨xs, ps, i, _, -, hps, -⟩ | ⟨-, u, hu, hsame⟩
  · exact hps.owned himporter
  · obtain ⟨es, hes, -⟩ := h.adds
    have hexports : u.exports ⊆ s'.exports := by
      rw [hes]
      rcases hu with rfl | rfl
      · exact subset_append_left ..
      · rw [exports_use]
        exact subset_append_left ..
    refine NamesOwned.mono (s := u) ?_ (by rw [hsame]) (by rw [hsame]; rfl) hexports
    rcases hu with rfl | rfl
    · exact hs
    · exact himporter

variable (hg : ∀ c, Below root c → Grammatical c) (hb : Below root n) (hr : Renewed Lowers n p m q)
include hg hb hr

lemma Recorded.mentioned (h : Recorded m k s e)
    (hnull : m.is "ExportNamedDeclaration" = true → (m.get "source").isNull = true)
    (ht : title? e.declaration = some name) : Mentioned root name := by
  obtain ⟨c, hc, hname⟩ := title?_eq_some.1 ht
  have hm := gives_lowered hg hb hr
  -- An identifier that is taken from the program is one of the program.
  have hlowered (hparts : Parts (LoweredFrom root) e.declaration) : Mentioned root name := by
    rw [hc] at hparts
    exact ⟨c, (parts_toTree.1 hparts).identifier hname.1, hname⟩
  cases h with
  | @names other key i l hmentions =>
    obtain ⟨text, rfl, hin⟩ := hm.name other hmentions
    obtain rfl : (⟨i, .str "Identifier", [("name", .str text)]⟩ : Node) = c := Node.toTree_injective hc
    obtain rfl : text = name := by simpa [Node.get?, Entries.get?] using hname.2
    exact hin
  | bound hk hs hmem hbound =>
    exact hlowered (hm.specifier _ hs _ hmem .exportSpecifier (.exported hk) "local" (by decide) _
      hbound)
  | passed hk hsource =>
    rw [hnull hk] at hsource
    cases hsource
  | value hk hd =>
    exact hlowered (parts_get? (hm.field .exportDefaultDeclaration hk _ (by decide)) hd)
  | @all source =>
    have hcall : c = importPauseOf k s source ∨ c = importCallOf k s source := by
      rw [calledImporter_eq] at hc
      split at hc
      · exact .inl (Node.toTree_injective hc).symm
      · exact .inr (Node.toTree_injective hc).symm
    rcases hcall with rfl | rfl
    · cases hname.1
    · cases hname.1

lemma Declared.reserved (h : Declared m k s t j s')
    (hsource : ∀ name, Mentioned root name → name ∈ source) (hs : Reserved source s) :
    Reserved source s' := by
  rcases h.cases with ⟨xs, ps, i, _, -, hps, -⟩ | ⟨hnull, u, hu, hsame⟩
  · exact hps.reserved (hs.use .importer)
  · obtain ⟨es, hes, hall⟩ := h.adds
    have hexports : u.exports = s.exports := by
      rcases hu with rfl | rfl
      · rfl
      · exact exports_use ..
    have hru : Reserved source u := by
      rcases hu with rfl | rfl
      · exact hs
      · exact hs.use .importer
    refine hru.add (by rw [hsame]) (by rw [hsame]; rfl) (hexports ▸ hes) fun e he name ht => ?_
    exact hsource name ((hall e he).mentioned hg hb hr hnull ht)

end Reserving

section Run

lemma Rewritten.uses {keys : List String} (h : Rewritten m k s keys t j s') :
    ∃ helper, helper ≠ .temporary ∧ s' = (s.use helper).2 := by
  cases h with
  | unary => exact ⟨.unary, by decide, rfl⟩
  | binary | assign | assignThenReturn | returnThenAssign => exact ⟨.binary, by decide, rfl⟩

/-- What every step keeps of the state, a visit keeps. -/
theorem state_visit {I : State → Prop}
    (hstep : ∀ n m m' p q q', Below root n → Renewed Lowers n p m q → Turned m q m' q' →
      I q.state → I q'.state) {m' : Node} (hl : Lawful root)
    (hv : visit builtinRules root ⟨none, "", none⟩ p = ⟨.ok (), m', q⟩) (hp : I p.state) :
    I q.state := by
  have hcarries : Carries (fun _ p _ q => I p.state → I q.state)
      fun (p q : Progress State) => I p.state → I q.state :=
    ⟨fun _ => id, fun h h' hp => h' (h hp), fun h => h⟩
  have hlowers {n m : Node} {p q : Progress State} (hb : Below root n) (h : Lowers n p m q) :
      I p.state → I q.state := by
    refine h.recursion (P := fun _ p _ q => I p.state → I q.state) ?_
    intro c m p q m' q' hc hr hs _ hp
    exact hstep c m m' p q q' (hb.trans hc) (hr.mono fun _ _ _ _ _ h => h.1) hs
      ((hr.mono fun _ _ _ _ _ h => h.2).progress hcarries hp)
  obtain ⟨m, r, hr, hs, -⟩ := lowered_step hl hv
  have hrenewed : I r.state :=
    (hr.mono fun s hmem _ _ _ h => hlowers (.child .refl hmem) h).progress hcarries hp
  cases hs with
  | turned ht => exact hstep root m _ p r _ .refl hr ht hrenewed
  | program => exact hrenewed

variable {source : List String}

lemma reserved_visit (hg : ∀ c, Below root c → Grammatical c)
    (hsource : ∀ name, Mentioned root name → name ∈ source) {m' : Node} (hl : Lawful root)
    (hv : visit builtinRules root ⟨none, "", none⟩ p = ⟨.ok (), m', q⟩)
    (hp : Reserved source p.state) : Reserved source q.state := by
  refine state_visit (fun n m m' p q q' hb hr hs hq => ?_) hl hv hp
  cases hs with
  | @still s _ _ hsame =>
    have hexports : s.exports = q.state.exports ++ [] := by rw [hsame, append_nil]
    exact hq.add (by rw [hsame]) (by rw [hsame]; rfl) hexports nofun
  | operator _ _ hrew =>
    obtain ⟨helper, -, rfl⟩ := hrew.uses
    exact hq.use helper
  | declaration hd => exact hd.reserved hg hb hr hsource hq

lemma owned_visit {m' : Node} (hl : Lawful root)
    (hv : visit builtinRules root ⟨none, "", none⟩ p = ⟨.ok (), m', q⟩)
    (hp : NamesOwned source p.state) : NamesOwned source q.state := by
  refine state_visit (fun n m m' p q q' _ _ hs hq => ?_) hl hv hp
  cases hs with
  | still _ _ hsame =>
    exact hq.mono (by rw [hsame]) (by rw [hsame]; rfl) (by rw [hsame]; exact Subset.refl _)
  | operator _ _ hrew =>
    obtain ⟨helper, hne, rfl⟩ := hrew.uses
    exact hq.use hne
  | declaration hd => exact hd.owned hq

lemma Reserved.unique (hs : Reserved source s) {f : Export} (he : e ∈ s.exports)
    (hf : f ∈ s.exports) (hte : title? e.declaration = some name)
    (htf : title? f.declaration = some name) (hno : name ∉ source) : e = f := by
  have hnodup := hs.aside.nodup
  rw [temporaries, Nodup, pairwise_filter, pairwise_filterMap] at hnodup
  let R (e f : Export) : Prop :=
    title? e.declaration = some name → title? f.declaration = some name → e = f
  have hpairs : s.exports.Pairwise R := hnodup.imp fun h he hf =>
    absurd rfl (h name he name hf (by simpa using hno) (by simpa using hno))
  have : Std.Symm R := ⟨fun _ _ h he hf => (h hf he).symm⟩
  exact hpairs.forall_of_forall (fun _ _ _ _ => rfl) he hf hte htf

end Run

section Constants

def Constant (n : Node) (bindings : List Tree) : Prop :=
  n.is "VariableDeclaration" = true ∧ n.get? "kind" = some (.str "const") ∧
    ∃ declarator pattern : Node, n.get? "declarations" = some (.list [declarator.toTree]) ∧
      declarator.is "VariableDeclarator" = true ∧ declarator.get? "id" = some pattern.toTree ∧
      pattern.is "ObjectPattern" = true ∧ pattern.get? "properties" = some (.list bindings)

def bindingOf (bound : Tree) (name : String) (i : Nat) : Node :=
  ⟨i + 1, .str "Property", [("key", bound), ("value", (identifier (.str name) i).1),
    ("kind", .str "init"), ("method", .bool false), ("shorthand", .bool false),
    ("computed", .bool false)]⟩

lemma PassesOn.pairs {xs ps : List Tree} (h : PassesOn xs k s ps j s') (he : e ∈ s'.exports) :
    e ∈ s.exports ∨ ∃ i name bound exported,
      e = ⟨(identifier (.str name) (i + 2)).1, exported, false⟩ ∧
        (bindingOf bound name i).toTree ∈ ps := by
  induction h with
  | nil => exact .inl he
  | @cons x bound exported xs ps k j s s' _ _ _ ih =>
    rcases ih he with hold | ⟨i, name, other, key, rfl, hmem⟩
    · rcases mem_append.1 hold with hold | hnew
      · exact .inl (exports_use s .temporary ▸ hold)
      · exact .inr ⟨k, _, bound, exported, mem_singleton.1 hnew, mem_cons_self⟩
    · exact .inr ⟨i, name, other, key, rfl, mem_cons_of_mem _ hmem⟩

lemma brings_constant (hg : ∀ c, Below root c → Grammatical c) (start : Progress State)
    (hno : ¬Mentioned root name) (i : Nat) :
    Brings root start
      (fun s => ∃ exported, ⟨(identifier (.str name) (i + 2)).1, exported, false⟩ ∈ s.exports)
      fun y => start.next ≤ y.id ∧ start.state.options.returnsExports = true ∧
        ∃ ps bound, Constant y ps ∧ (bindingOf bound name i).toTree ∈ ps := by
  rintro n m m' p q q' hb hr hs hstart hold ⟨exported, hmem⟩
  have htitle : title? (identifier (.str name) (i + 2)).1 = some name :=
    title?_eq_some.2 ⟨⟨i + 2, _, _⟩, rfl, rfl, rfl⟩
  cases hs with
  | still _ _ hsame =>
    rw [hsame] at hmem
    exact absurd ⟨exported, hmem⟩ hold
  | operator _ _ hrew =>
    rw [hrew.exports] at hmem
    exact absurd ⟨exported, hmem⟩ hold
  | @declaration new l s hd =>
    rcases hd.cases with ⟨xs, ps, j, source, hreturns, hps, hnew⟩ | ⟨hnull, -⟩
    · rcases hps.pairs hmem with hin | ⟨i', name', bound, key, he, hbound⟩
      · exact absurd ⟨exported, exports_use q.state .importer ▸ hin⟩ hold
      · obtain ⟨rfl, rfl⟩ : i = i' ∧ name = name' := by
          simpa [identifier, node] using congrArg Export.declaration he
        obtain rfl : m' = ⟨j + 2, .str "VariableDeclaration", _⟩ := Node.toTree_injective hnew
        have hle : q.next ≤ j := Nat.le_trans le_importerEnd hps.le
        rw [hstart.options] at hreturns
        refine ⟨_, ⟨?_, hreturns, ps, bound, ⟨rfl, rfl, ⟨j + 1, _, _⟩, ⟨j, _, _⟩, rfl, rfl, rfl, rfl,
          rfl⟩, hbound⟩, .inl .refl⟩
        exact Nat.le_trans hstart.next (Nat.le_add_right_of_le hle)
    · rcases hd.adds.mem hmem with hin | hrec
      · exact absurd ⟨exported, hin⟩ hold
      · exact absurd (hrec.mentioned hg hb hr hnull htitle) hno

end Constants

end Overload.Lowering

namespace Overload

open Visit Overload.Tree List

def crowded : Data :=
  .object [("type", .str "Program"), ("body", .list [
    .object [("type", .str "ExpressionStatement"), ("expression",
      .object [("type", .str "BinaryExpression"), ("operator", .str "+"),
        ("left", .object [("type", .str "UnaryExpression"), ("operator", .str "-"),
          ("argument", .object [("type", .str "Identifier"), ("name", .str "$__")])]),
        ("right", .object [("type", .str "Identifier"), ("name", .str "x")])])],
    .object [("type", .str "ExportNamedDeclaration"), ("declaration", .null),
      ("specifiers", .list [.object [("type", .str "ExportSpecifier"),
        ("local", .object [("type", .str "Identifier"), ("name", .str "a")]),
        ("exported", .object [("type", .str "Identifier"), ("name", .str "$tmp")])]]),
      ("source", .object [("type", .str "Literal"), ("value", .str "m")])]])]

end Overload
