import Overload.Proofs.Lowering.Progress

/-!
The state only grows along a visit, and the names that it hands out collide neither with the names
of the program nor with each other.
-/

namespace Overload.Lowering

open Visit List State

variable {s : State} {source names : List String} {p : Progress State}

structure Extends (p q : Progress State) : Prop where
  next : p.next ≤ q.next
  options : q.state.options = p.state.options
  exports : p.state.exports <+: q.state.exports
  identifiers : p.state.identifiers <+: q.state.identifiers
  unaryFn : ∀ name, p.state.unaryFn = some name → q.state.unaryFn = some name
  binaryFn : ∀ name, p.state.binaryFn = some name → q.state.binaryFn = some name
  importFn : ∀ name, p.state.importFn = some name → q.state.importFn = some name
  taken : p.state.names.taken <:+ q.state.names.taken

namespace Extends

lemma refl (p : Progress State) : Extends p p :=
  ⟨Nat.le_refl _, rfl, prefix_rfl, prefix_rfl, fun _ => id, fun _ => id, fun _ => id,
    suffix_rfl⟩

lemma trans {q r : Progress State} (h : Extends p q) (h' : Extends q r) : Extends p r :=
  ⟨Nat.le_trans h.next h'.next, h'.options.trans h.options, h.exports.trans h'.exports,
    h.identifiers.trans h'.identifiers, fun _ hn => h'.unaryFn _ (h.unaryFn _ hn),
    fun _ hn => h'.binaryFn _ (h.binaryFn _ hn), fun _ hn => h'.importFn _ (h.importFn _ hn),
    h.taken.trans h'.taken⟩

lemma use (p : Progress State) (h : Helper) :
    Extends p { p with state := (p.state.use h).2 } := by
  have fresh (base : String) : p.state.names.taken <:+ (p.state.names.fresh base).2.taken := by
    rw [Supply.taken_fresh]
    exact suffix_cons ..
  cases h with
  | unary =>
    simp only [State.use, useUnary]
    split
    · exact refl p
    · rename_i hn
      exact ⟨Nat.le_refl _, rfl, prefix_rfl, prefix_rfl, by simp [hn], fun _ => id,
        fun _ => id, fresh _⟩
  | binary =>
    simp only [State.use, useBinary]
    split
    · exact refl p
    · rename_i hn
      exact ⟨Nat.le_refl _, rfl, prefix_rfl, prefix_rfl, fun _ => id, by simp [hn],
        fun _ => id, fresh _⟩
  | importer =>
    simp only [State.use, useImport]
    split
    · exact ⟨Nat.le_refl _, rfl, prefix_rfl, prefix_rfl, fun _ => id, fun _ => id,
        fun _ => id, suffix_rfl⟩
    · rename_i hn
      exact ⟨Nat.le_refl _, rfl, prefix_rfl, prefix_rfl, fun _ => id, fun _ => id,
        by simp [hn], fresh _⟩
  | temporary =>
    exact ⟨Nat.le_refl _, rfl, prefix_rfl, prefix_rfl, fun _ => id, fun _ => id,
      fun _ => id, fresh _⟩

lemma identify {name : Tree} (h : p.state.identify name = .ok s) :
    Extends p { p with state := s } := by
  obtain rfl := identify_eq_ok h
  refine ⟨Nat.le_refl _, rfl, prefix_rfl, ?_, fun _ => id, fun _ => id, fun _ => id,
    suffix_rfl⟩
  unfold Tree.insertKey
  dsimp only
  split
  · exact prefix_rfl
  · exact prefix_append ..

lemma closed (p : Progress State) : Closed (Extends p) where
  build _ _ h hk := h.trans ⟨hk, rfl, prefix_rfl, prefix_rfl, fun _ => id, fun _ => id,
    fun _ => id, suffix_rfl⟩
  use q h hq := hq.trans (use q h)
  record _ _ h := h.trans ⟨Nat.le_refl _, rfl, prefix_append .., prefix_rfl, fun _ => id,
    fun _ => id, fun _ => id, suffix_rfl⟩
  await _ h := h.trans ⟨Nat.le_refl _, rfl, prefix_rfl, prefix_rfl, fun _ => id,
    fun _ => id, fun _ => id, suffix_rfl⟩

lemma notes (p : Progress State) : Notes (Extends p) := fun _ _ _ h hs => h.trans (identify hs)

lemma finish {n : Node} {place : Place} (h : (finish builtinRules place n p).outcome = .ok ()) :
    Extends p (Visit.finish builtinRules place n p).progress :=
  finish_keeps (closed p) (notes p) h (refl p)

end Extends

def State.helpers (s : State) : List String :=
  s.unaryFn.toList ++ s.binaryFn.toList ++ s.importFn.toList

lemma State.map_bindings (s : State) : s.bindings.map (·.1) = s.helpers := by
  have hfst (o : Option String) (b : Binding) :
      ((o.map fun n => (n, b)).toList.map fun e => e.1) = o.toList := by
    cases o <;> rfl
  simp only [bindings, helpers, map_append, hfst]

def IsTemporary (name : String) : Prop :=
  name = temporaryBase ∨ ∃ k, name = Supply.numbered temporaryBase k

structure Hygienic (source : List String) (s : State) (made : List String) : Prop where
  taken : s.names.taken = made ++ source
  nodup : made.Nodup
  free : ∀ name ∈ made, name ∉ source
  helpers_nodup : s.helpers.Nodup
  helpers_made : ∀ name ∈ s.helpers, name ∈ made
  others : ∀ name ∈ made, name ∈ s.helpers ∨ IsTemporary name

lemma use_cases (s : State) (h : Helper) :
    (s.use h).2.names = s.names ∧ (s.use h).2.helpers = s.helpers ∨
      ∃ base, (s.use h).2.names = (s.names.fresh base).2 ∧
        ((s.use h).2.helpers.Perm ((s.names.fresh base).1 :: s.helpers) ∨
          (s.use h).2.helpers = s.helpers ∧ h = .temporary ∧ base = temporaryBase) := by
  cases h with
  | unary =>
    simp only [use, useUnary]
    split
    · exact .inl ⟨rfl, rfl⟩
    · rename_i hn
      refine .inr ⟨_, rfl, .inl ?_⟩
      simp [helpers, hn]
  | binary =>
    simp only [use, useBinary]
    split
    · exact .inl ⟨rfl, rfl⟩
    · rename_i hn
      refine .inr ⟨_, rfl, .inl ?_⟩
      simp only [helpers, hn, Option.toList_none, Option.toList_some, append_nil,
        append_assoc, cons_append, nil_append]
      exact perm_middle
  | importer =>
    simp only [use, useImport]
    split
    · exact .inl ⟨rfl, rfl⟩
    · rename_i hn
      refine .inr ⟨_, rfl, .inl ?_⟩
      simp only [helpers, hn, Option.toList_none, Option.toList_some, append_nil]
      exact perm_append_singleton ..
  | temporary => exact .inr ⟨_, rfl, .inr ⟨rfl, rfl, rfl⟩⟩

lemma Hygienic.congr {made : List String} {t : State} (h : Hygienic source s made)
    (hn : t.names = s.names) (hh : t.helpers = s.helpers) : Hygienic source t made := by
  obtain ⟨h₁, h₂, h₃, h₄, h₅, h₆⟩ := h
  rw [← hn] at h₁
  rw [← hh] at h₄ h₅ h₆
  exact ⟨h₁, h₂, h₃, h₄, h₅, h₆⟩

lemma Hygienic.use {made : List String} (hs : Hygienic source s made) (h : Helper) :
    ∃ made, Hygienic source (s.use h).2 made := by
  rcases use_cases s h with ⟨hn, hh⟩ | ⟨base, hn, hh⟩
  · exact ⟨made, hs.congr hn hh⟩
  · have hfree := s.names.fresh_free base
    have hbase := s.names.fresh_cases base
    rw [hs.taken, mem_append, not_or] at hfree
    have htaken : (s.use h).2.names.taken = ((s.names.fresh base).1 :: made) ++ source := by
      rw [hn, Supply.taken_fresh, hs.taken, cons_append]
    have hnodup : ((s.names.fresh base).1 :: made).Nodup := nodup_cons.2 ⟨hfree.1, hs.nodup⟩
    have hfree' : ∀ name ∈ (s.names.fresh base).1 :: made, name ∉ source :=
      forall_mem_cons.2 ⟨hfree.2, hs.free⟩
    suffices h : (s.use h).2.helpers.Nodup ∧
        (∀ name ∈ (s.use h).2.helpers, name ∈ (s.names.fresh base).1 :: made) ∧
        ∀ name ∈ (s.names.fresh base).1 :: made,
          name ∈ (s.use h).2.helpers ∨ IsTemporary name from
      ⟨_, htaken, hnodup, hfree', h.1, h.2.1, h.2.2⟩
    rcases hh with hperm | ⟨hsame, -, rfl⟩
    · have hmem (name : String) := hperm.mem_iff (a := name)
      refine ⟨hperm.nodup_iff.2 (nodup_cons.2 ⟨fun hm => hfree.1 (hs.helpers_made _ hm),
        hs.helpers_nodup⟩), fun name hname => ?_, fun name hname => ?_⟩
      · rw [hmem] at hname
        rcases mem_cons.1 hname with rfl | hname
        · exact mem_cons_self
        · exact mem_cons_of_mem _ (hs.helpers_made name hname)
      · rw [hmem]
        rcases mem_cons.1 hname with rfl | hname
        · exact .inl mem_cons_self
        · exact (hs.others name hname).imp_left (mem_cons_of_mem _)
    · rw [hsame]
      refine ⟨hs.helpers_nodup, fun name hname => mem_cons_of_mem _ (hs.helpers_made _ hname),
        fun name hname => ?_⟩
      rcases mem_cons.1 hname with rfl | hname
      · exact .inr hbase
      · exact hs.others name hname

lemma closed_hygienic (source : List String) :
    Closed fun p => ∃ made, Hygienic source p.state made where
  build _ _ h _ := h
  use p h hp := by
    obtain ⟨made, hs⟩ := hp
    exact hs.use h
  record _ _ h := by
    obtain ⟨made, hs⟩ := h
    exact ⟨made, hs.congr rfl rfl⟩
  await _ h := by
    obtain ⟨made, hs⟩ := h
    exact ⟨made, hs.congr rfl rfl⟩

lemma notes_hygienic (source : List String) :
    Notes fun p => ∃ made, Hygienic source p.state made := by
  rintro p name s ⟨made, hs⟩ h
  obtain rfl := identify_eq_ok h
  exact ⟨made, hs.congr rfl rfl⟩

structure SetAside (source names : List String) (s : State) : Prop where
  nodup : names.Nodup
  source_taken : ∀ name ∈ source, name ∈ s.names.taken
  helpers : ∀ name ∈ s.helpers, name ∈ s.names.taken
  taken : ∀ name ∈ names, name ∈ s.names.taken
  apart : ∀ name ∈ names, name ∉ s.helpers ∧ name ∉ source

lemma SetAside.congr {t : State} (h : SetAside source names s) (hn : t.names = s.names)
    (hh : t.helpers = s.helpers) : SetAside source names t := by
  obtain ⟨h₁, h₂, h₃, h₄, h₅⟩ := h
  rw [← hn] at h₂ h₃ h₄
  rw [← hh] at h₃ h₅
  exact ⟨h₁, h₂, h₃, h₄, h₅⟩

lemma SetAside.use (hs : SetAside source names s) (h : Helper) :
    SetAside source names (s.use h).2 := by
  rcases use_cases s h with ⟨hn, hh⟩ | ⟨base, hn, hh⟩
  · exact hs.congr hn hh
  · have hfree := s.names.fresh_free base
    have htaken : (s.use h).2.names.taken = (s.names.fresh base).1 :: s.names.taken := by
      rw [hn, Supply.taken_fresh]
    -- A new helper has a name that was free, so it is not the name of something set aside.
    have hhelper (name : String) (hname : name ∈ (s.use h).2.helpers) :
        name = (s.names.fresh base).1 ∨ name ∈ s.helpers := by
      rcases hh with hperm | ⟨hsame, -⟩
      · exact mem_cons.1 (hperm.mem_iff.1 hname)
      · exact .inr (hsame ▸ hname)
    refine ⟨hs.nodup, fun name hname => ?_, fun name hname => ?_, fun name hname => ?_,
      fun name hname => ⟨fun hmem => ?_, (hs.apart name hname).2⟩⟩
    · rw [htaken]
      exact mem_cons_of_mem _ (hs.source_taken name hname)
    · rw [htaken]
      rcases hhelper name hname with rfl | hname
      · exact mem_cons_self
      · exact mem_cons_of_mem _ (hs.helpers name hname)
    · rw [htaken]
      exact mem_cons_of_mem _ (hs.taken name hname)
    · rcases hhelper name hmem with rfl | hmem
      · exact hfree (hs.taken _ hname)
      · exact (hs.apart name hname).1 hmem

lemma SetAside.temporary (hs : SetAside source names s) :
    SetAside source (names ++ [(s.use .temporary).1]) (s.use .temporary).2 := by
  obtain ⟨hnodup, hsource, hhelpers, htaken, hapart⟩ := hs.use .temporary
  have hfree : (s.use .temporary).1 ∉ s.names.taken := s.names.fresh_free temporaryBase
  refine ⟨nodup_append.2 ⟨hnodup, by simp, ?_⟩, hsource, hhelpers, ?_, ?_⟩
  · intro name hname other hother he
    rw [mem_singleton.1 hother] at he
    exact hfree (he ▸ hs.taken name hname)
  · intro name hname
    rcases mem_append.1 hname with hname | hname
    · exact htaken name hname
    · rw [mem_singleton.1 hname]
      exact s.names.taken_fresh temporaryBase ▸ mem_cons_self
  · intro name hname
    rcases mem_append.1 hname with hname | hname
    · exact hapart name hname
    · rw [mem_singleton.1 hname]
      exact ⟨fun hmem => hfree (hs.helpers _ hmem), fun hmem => hfree (hs.source_taken _ hmem)⟩

lemma closed_setAside (source names : List String) :
    Closed fun p => SetAside source names p.state where
  build _ _ h _ := h
  use _ h hp := hp.use h
  record _ _ h := h.congr rfl rfl
  await _ h := h.congr rfl rfl

lemma notes_setAside (source names : List String) :
    Notes fun p => SetAside source names p.state := by
  intro p name s h hs
  obtain rfl := identify_eq_ok hs
  exact h.congr rfl rfl

end Overload.Lowering
