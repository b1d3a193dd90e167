import Overload.Proofs.Lowering.Declarations
import Overload.Proofs.Lowering.Naming
import Overload.Proofs.Lowering.Operators
import Overload.Proofs.Lowering.Patterns

/-!
All that the rules for one node can do: leave it alone, put a new tree into its place, or close the
program.
-/

namespace Overload.Lowering

open Visit Node List

variable {s : State} {n m' : Node} {d : Context State} {q : Progress State}

def Similar (s t : State) : Prop :=
  t = { s with identifiers := t.identifiers, hasAwait := t.hasAwait }

lemma Similar.refl (s : State) : Similar s s := rfl

lemma Similar.trans {t u : State} (h : Similar s t) (h' : Similar t u) : Similar s u := by
  rw [Similar, h', h]

def Alike (m n : Node) : Prop := ∀ name, m.get? name = n.get? name

lemma Alike.kind {m : Node} (h : Alike m n) : m.kind = n.kind := Option.some.inj (h "type")

def Still (options : Options) (m : Node) : Prop :=
  ∀ (n : Node) (place : Place) (p : Progress State), Alike n m → p.state.options = options →
    (place.parent = none → m.is "Program" = false) →
    ∃ s, finish builtinRules place n p = ⟨.ok (), n, { p with state := s }⟩ ∧ Similar p.state s

lemma Still.congr {options : Options} {m : Node} (h : Still options m) (hn : Alike n m) :
    Still options n := by
  intro k place p hk ho hroot
  refine h k place p (fun name => (hk name).trans (hn name)) ho fun hp => ?_
  rw [← hroot hp, Node.is, Node.is, hn.kind]

inductive Closes (m : Node) (k : Nat) (s : State) : Node → Nat → Prop
  | plain : s.options.returnsExports = false → Closes m k s (asBlock m) k
  | exports {body : List Tree} {t : Tree} {j : Nat} : s.options.returnsExports = true →
      m.get? "body" = some (.list body) → returned s.exports k = (.ok t, j) →
      Closes m k s (appended (asBlock m) body t) j

def operands : List (String × List String) :=
  [("UnaryExpression", ["argument"]), ("BinaryExpression", ["left", "right"]),
    ("LogicalExpression", ["left", "right"]), ("UpdateExpression", ["argument"]),
    ("AssignmentExpression", ["left", "right"])]

def waits (n : Node) : Bool :=
  n.is "AwaitExpression" || n.is "ForOfStatement" && (n.get "await").truthy

inductive Turned (m : Node) (p : Progress State) : Node → Progress State → Prop
  | still {s : State} : Still p.state.options m → (∀ kind ∈ moduleKinds, m.is kind = false) →
      Similar p.state s → s.hasAwait = (p.state.hasAwait || waits m) →
      Turned m p m { p with state := s }
  | operator {kind : String} {keys : List String} {n : Node} {k : Nat} {s : State} :
      (kind, keys) ∈ operands → m.is kind = true → Rewritten m p.next p.state keys n.toTree k s →
      Turned m p n ⟨k, p.notes, s⟩
  | declaration {n : Node} {k : Nat} {s : State} : Declared m p.next p.state n.toTree k s →
      Turned m p n ⟨k, p.notes, s⟩

inductive Stepped (place : Place) (m : Node) (p : Progress State) : Node → Progress State → Prop
  | turned {n : Node} {q : Progress State} : Turned m p n q →
      (place.parent = none → m.is "Program" = false) → Stepped place m p (landed place.parent m n) q
  | program {n : Node} {k : Nat} : place.parent = none → m.is "Program" = true →
      Closes m p.next p.state n k → Stepped place m p n ⟨k, p.notes, p.state⟩

def dissolved : List String := operands.map (·.1) ++ moduleKinds

variable {place : Place} {m : Node} {p : Progress State} {kind : String}

lemma still_of_rule {rule : Step Unit} {options : Options} (hk : m.kind = .str kind)
    (hr : Entries.get? kind builtinRules = some [rule])
    (h : ∀ c : Context State, Alike c.site.node m → c.state.options = options →
      (c.site.parent = none → kind ≠ "Program") →
      ∃ s, rule c = (.ok (), { c with state := s }) ∧ Similar c.state s) : Still options m := by
  intro n place p hn ho hroot
  obtain ⟨s, hs, hsim⟩ := h ⟨siteAt place n, p.next, p.notes, p.state⟩ hn ho fun hp he => by
    have := hroot hp
    rw [is_of_kind hk] at this
    simp [he] at this
  refine ⟨s, ?_, hsim⟩
  rw [finish_of_rule (hn.kind.trans hk) hr, hs]
  rfl

lemma is_other {kinds : List String} (hk : m.kind = .str kind) (h : kind ∉ kinds) :
    ∀ other ∈ kinds, m.is other = false := by
  intro other ho
  rw [is_of_kind hk, beq_eq_false_iff_ne]
  rintro rfl
  exact h ho

lemma waits_of_kind (hk : m.kind = .str kind) (h : kind ∉ ["AwaitExpression", "ForOfStatement"]) :
    waits m = false := by
  have hother := is_other hk h
  rw [waits, hother _ (by simp), hother _ (by simp)]
  rfl

lemma is_unique {kind other : String} (hk : n.is kind = true) (ho : n.is other = true)
    (hne : kind ≠ other) : False := by
  rw [is_of_kind (is_iff.1 hk), beq_iff_eq] at ho
  exact hne ho

lemma Declared.is_module {k j : Nat} {s' : State} {t : Tree} (h : Declared m k s t j s') :
    ∃ kind ∈ moduleKinds, m.is kind = true := by
  cases h with
  | importAll hm | importNames hm | exportFrom hm | exportDeclared hm | exportLocals hm =>
    exact ⟨_, by decide, hm⟩
  | exportDefaultName hm | exportDefaultValue hm | exportAll hm => exact ⟨_, by decide, hm⟩

lemma stepped_still (h : Turned m p m q) (hroot : place.parent = none → m.is "Program" = false) :
    Stepped place m p m q := by
  have := Stepped.turned h hroot
  rwa [landed_self] at this

lemma Turned.stepped (h : Turned m p m' q) : Stepped ⟨some m, "", none⟩ m p m' q := .turned h nofun

lemma Stepped.inner (h : Stepped place m p m' q) (hp : place.parent ≠ none) : Turned m p m' q := by
  cases h with
  | turned ht =>
    cases hpar : place.parent with
    | none => exact absurd hpar hp
    | some => exact ht
  | program hroot => exact absurd hroot hp

lemma stepped_effect {rule : Step Unit} {keys : List String} (hk : m.kind = .str kind)
    (hr : Entries.get? kind builtinRules = some [rule]) (ho : (kind, keys) ∈ operands)
    (h : Effect rule keys ⟨siteAt place m, p.next, p.notes, p.state⟩ d) :
    Stepped place m p d.site.node d.progress := by
  have hall : ∀ e ∈ operands, e.1 ∉ "Program" :: moduleKinds ∧
      e.1 ∉ ["AwaitExpression", "ForOfStatement"] := by decide
  obtain ⟨hother, hawait⟩ := hall _ ho
  obtain ⟨hprogram, hmodule⟩ := forall_mem_cons.1 (is_other hk hother)
  rcases h with ⟨rfl, hidle⟩ | ⟨n, k, s, hrew, hd, hn⟩
  · refine stepped_still (.still (still_of_rule hk hr fun c hc hopt _ => ?_) hmodule (.refl _) ?_)
      fun _ => hprogram
    · exact ⟨c.state, hidle c hc hopt, .refl _⟩
    · rw [waits_of_kind hk hawait, Bool.or_false]
  · rw [hn, hd]
    exact .turned (.operator ho (by rw [is_of_kind hk, beq_self_eq_true]) hrew) fun _ => hprogram

lemma stepped_replaces (h : Replaces ⟨siteAt place m, p.next, p.notes, p.state⟩ d) :
    Stepped place m p d.site.node d.progress := by
  obtain ⟨n, k, s, hdecl, hd, hn⟩ := h
  obtain ⟨kind, hmem, hk⟩ := hdecl.is_module
  have hall : ∀ kind ∈ moduleKinds, kind ∉ ["Program"] := by decide
  rw [hn, hd]
  exact .turned (.declaration hdecl) fun _ =>
    is_other (is_iff.1 hk) (hall kind hmem) _ (mem_singleton_self _)

lemma closes_of_programRule {c : Context State} (hp : c.site.parent = none)
    (h : programRule c = (.ok (), d)) :
    ∃ n k, Closes c.site.node c.next c.state n k ∧
      d = { c with next := k, site := { c.site with node := n } } := by
  rw [programRule_root hp] at h
  split at h
  · rename_i hreturns
    rw [closeProgram_eq] at h
    split at h
    · rename_i body hbody
      split at h
      · rename_i t next ht
        obtain ⟨-, rfl⟩ := Prod.mk.inj h
        have hget := attr_eq_ok.1 hbody
        refine ⟨_, _, .exports hreturns ?_ ht, rfl⟩
        simpa [asBlock, Node.get?, Node.set, Node.erase, Entries.get?_erase_of_ne] using hget
      · cases congrArg Prod.fst h
    · cases congrArg Prod.fst h
    · cases congrArg Prod.fst h
  · rename_i hreturns
    obtain ⟨-, rfl⟩ := Prod.mk.inj h
    exact ⟨_, _, .plain (by simpa using hreturns), rfl⟩

lemma still_program (hk : m.kind = .str "Program") (options : Options) : Still options m := by
  refine still_of_rule hk rfl fun c _ _ hroot => ?_
  cases hp : c.site.parent with
  | none => exact absurd rfl (hroot hp)
  | some q => exact ⟨c.state, programRule_child hp, .refl _⟩

lemma still_await (hk : m.kind = .str "AwaitExpression") (options : Options) : Still options m :=
  still_of_rule hk rfl fun _ _ _ _ => ⟨_, rfl, rfl⟩

lemma still_forOf (hk : m.kind = .str "ForOfStatement") (options : Options) : Still options m := by
  refine still_of_rule hk rfl fun c _ _ _ => ?_
  change ∃ s, (if (c.site.node.get "await").truthy = true then noteAwait else pure ()) c = _ ∧ _
  split
  · exact ⟨_, rfl, rfl⟩
  · exact ⟨_, rfl, rfl⟩

lemma still_identifier (hk : m.kind = .str "Identifier") {name : Tree}
    (hn : m.get? "name" = some name) (hkey : name.isKey = true) (options : Options) :
    Still options m := by
  refine still_of_rule hk rfl fun c hc _ _ => ?_
  have hid : c.state.identify name =
      .ok { c.state with identifiers := Tree.insertKey c.state.identifiers name } := by
    simp [State.identify, Tree.key, hkey]
  refine ⟨{ c.state with identifiers := Tree.insertKey c.state.identifiers name }, ?_, rfl⟩
  rw [identifierRule_eq, attr_eq_ok.2 ((hc _).trans hn)]
  simp only [hid]

lemma still_of_rulesFor (h : rulesFor builtinRules m = .ok []) (options : Options) :
    Still options m := by
  intro n place p hn _ _
  refine ⟨p.state, ?_, .refl _⟩
  have hrules : rulesFor builtinRules n = .ok [] := by rw [← h, rulesFor, rulesFor, hn.kind]
  simp only [finish, hrules]
  rfl

lemma stepped_of_still (h : Still p.state.options m) (hm : ∀ kind ∈ moduleKinds, m.is kind = false)
    (hroot : place.parent = none → m.is "Program" = false)
    (hw : (finish builtinRules place m p).progress.state.hasAwait =
      (p.state.hasAwait || waits m)) :
    Stepped place m p (finish builtinRules place m p).node
      (finish builtinRules place m p).progress := by
  obtain ⟨s, hs, hsim⟩ := h m place p (fun _ => rfl) rfl hroot
  rw [hs] at hw ⊢
  exact stepped_still (.still h hm hsim hw) hroot

lemma stepped_of_finish (h : (finish builtinRules place m p).outcome = .ok ()) :
    Stepped place m p (finish builtinRules place m p).node
      (finish builtinRules place m p).progress := by
  rcases finish_cases h with ⟨hsame, hnone⟩ | ⟨kind, rule, d, hk, hr, hd, he⟩
  · have hrules : rulesFor builtinRules m = .ok [] := by
      unfold finish at h
      cases hr : rulesFor builtinRules m with
      | error e => simp [hr] at h
      | ok rules =>
        unfold rulesFor Tree.key at hr
        cases hk : m.kind <;> simp_all [Tree.isKey]
    have hlacks {kind : String} (hk : Entries.get? kind builtinRules ≠ none) : m.is kind = false := by
      by_contra his
      exact hk (hnone kind (is_iff.1 (by simpa using his)))
    have hruled : ∀ kind ∈ "Program" :: "AwaitExpression" :: "ForOfStatement" :: moduleKinds,
        m.is kind = false := by
      refine fun kind hk => hlacks ?_
      revert hk
      simp only [moduleKinds, mem_cons, not_mem_nil, or_false]
      rintro (rfl | rfl | rfl | rfl | rfl | rfl | rfl) <;>
        simp [builtinRules, operatorRules, moduleRules, generalRules, Entries.get?]
    refine stepped_of_still (still_of_rulesFor hrules _) (fun kind hk => hruled kind (by simp [hk]))
      (fun _ => hruled _ (by simp)) ?_
    rw [hsame, waits, hruled _ (by simp), hruled "ForOfStatement" (by simp)]
    exact (Bool.or_false _).symm
  · have hmem : (kind, [rule]) ∈ builtinRules := Entries.mem_of_get? hr
    simp only [builtinRules, operatorRules, moduleRules, generalRules, cons_append,
      nil_append, mem_cons, Prod.mk.injEq, cons.injEq, and_true, not_mem_nil,
      or_false] at hmem
    have his : m.is kind = true := by rw [is_of_kind hk, beq_self_eq_true]
    rcases hmem with ⟨rfl, rfl⟩ | ⟨rfl, rfl⟩ | ⟨rfl, rfl⟩ | ⟨rfl, rfl⟩ | ⟨rfl, rfl⟩ | ⟨rfl, rfl⟩ |
      ⟨rfl, rfl⟩ | ⟨rfl, rfl⟩ | ⟨rfl, rfl⟩ | ⟨rfl, rfl⟩ | ⟨rfl, rfl⟩ | ⟨rfl, rfl⟩ | ⟨rfl, rfl⟩
    · exact he ▸ stepped_effect hk hr (by decide) (effect_unaryRule hd)
    · exact he ▸ stepped_effect hk hr (by decide) (effect_binaryRule hd)
    · exact he ▸ stepped_effect hk hr (by decide) (effect_binaryRule hd)
    · exact he ▸ stepped_effect hk hr (by decide) (effect_updateRule hd)
    · exact he ▸ stepped_effect hk hr (by decide) (effect_assignmentRule hd)
    · exact he ▸ stepped_replaces (replaces_importRule his hd)
    · exact he ▸ stepped_replaces (replaces_exportNamedRule his hd)
    · exact he ▸ stepped_replaces (replaces_exportDefaultRule his hd)
    · exact he ▸ stepped_replaces (replaces_exportAllRule his hd)
    · cases hp : place.parent with
      | some q =>
        rw [programRule_child (p := q) hp] at hd
        obtain ⟨-, rfl⟩ := Prod.mk.inj hd
        refine stepped_of_still (still_program hk _) (is_other hk (by decide)) (by simp [hp]) ?_
        rw [he, waits_of_kind hk (by decide), Bool.or_false]
        rfl
      | none =>
        obtain ⟨n, k, hcloses, rfl⟩ :=
          closes_of_programRule (c := ⟨siteAt place m, p.next, p.notes, p.state⟩) hp hd
        exact he ▸ .program hp his hcloses
    · refine stepped_of_still (still_await hk _) (is_other hk (by decide))
        (fun _ => by simp [is_of_kind hk]) ?_
      obtain ⟨-, rfl⟩ := Prod.mk.inj hd
      rw [he, waits, his, Bool.true_or, Bool.or_true]
      rfl
    · refine stepped_of_still (still_forOf hk _) (is_other hk (by decide))
        (fun _ => by simp [is_of_kind hk]) ?_
      change (if (m.get "await").truthy = true then noteAwait else pure ()) _ = _ at hd
      rw [he, waits, his, is_of_kind hk]
      split at hd
      · rename_i hawait
        obtain ⟨-, rfl⟩ := Prod.mk.inj hd
        rw [hawait]
        exact (Bool.or_true _).symm
      · rename_i hawait
        obtain ⟨-, rfl⟩ := Prod.mk.inj hd
        rw [Bool.not_eq_true] at hawait
        rw [hawait]
        exact (Bool.or_false _).symm
    · rw [identifierRule_eq] at hd
      split at hd
      · rename_i name hname
        split at hd
        · rename_i s hs
          have hkey : name.isKey = true := by
            by_contra hkey
            simp [State.identify, Tree.key, hkey] at hs
          refine stepped_of_still (still_identifier hk (attr_eq_ok.1 hname) hkey _)
            (is_other hk (by decide)) (fun _ => by simp [is_of_kind hk]) ?_
          obtain ⟨-, rfl⟩ := Prod.mk.inj hd
          obtain rfl := identify_eq_ok hs
          rw [he, waits_of_kind hk (by decide), Bool.or_false]
          rfl
        · cases congrArg Prod.fst hd
      · cases congrArg Prod.fst hd

lemma among_eq_true {t : Tree} {names : List String} (h : t.among names = .ok true) :
    ∃ name, t = .str name ∧ name ∈ names := by
  obtain ⟨key, hkey, h⟩ := except_bind_eq_ok.1 h
  obtain rfl : t = key := by
    unfold Tree.key at hkey
    split at hkey
    · exact Except.ok.inj hkey
    · cases hkey
  split at h
  · exact ⟨_, rfl, contains_iff_mem.1 (Except.ok.inj h)⟩
  · cases h

def moduleResults : List String :=
  ["VariableDeclaration", "FunctionDeclaration", "ClassDeclaration", "EmptyStatement"]

lemma Declared.kind_result {new : Node} {k j : Nat} {s' : State}
    (h : Declared m k s new.toTree j s') : ∃ kind ∈ moduleResults, new.kind = .str kind := by
  generalize ht : new.toTree = t at h
  have hkind {kind : String} {i : Nat} {fields : List (String × Tree)}
      (hn : new.toTree = .node i (.str kind) fields) : new.kind = .str kind :=
    congrArg Node.kind (toTree_injective (m := ⟨i, .str kind, fields⟩) hn)
  cases h with
  | importAll | importNames | exportFrom => exact ⟨_, by decide, hkind ht⟩
  | exportDeclared _ _ _ hnames =>
    rw [← ht, declaredNames_eq_ok_iff] at hnames
    rcases hnames with ⟨hk, -⟩ | ⟨hmem, hk, -⟩
    · exact ⟨_, by decide, is_iff.1 hk⟩
    · refine ⟨_, ?_, is_iff.1 hk⟩
      rcases mem_pair.1 hmem with rfl | rfl <;> decide
  | exportLocals => exact ⟨_, by decide, hkind ht⟩
  | exportDefaultName _ _ _ hk hmem =>
    rw [← ht] at hk
    obtain rfl := Except.ok.inj hk
    obtain ⟨kind, hkind, hmem⟩ := among_eq_true hmem
    refine ⟨kind, ?_, hkind⟩
    rcases mem_pair.1 hmem with rfl | rfl <;> decide
  | exportDefaultValue | exportAll => exact ⟨_, by decide, hkind ht⟩

lemma Turned.same (h : Turned m p m' q) (hm : ∀ kind ∈ dissolved, m.is kind = false) : m' = m := by
  cases h with
  | still => rfl
  | operator ho hk =>
    have := hm _ (mem_append_left _ (mem_map_of_mem ho))
    rw [hk] at this
    cases this
  | declaration hd =>
    obtain ⟨kind, hmem, hk⟩ := hd.is_module
    have := hm kind (mem_append_right _ hmem)
    rw [hk] at this
    cases this

lemma Turned.declared (h : Turned m p m' q) (hmem : kind ∈ moduleKinds) (hk : m.is kind = true) :
    ∃ k s, Declared m p.next p.state m'.toTree k s ∧ q = ⟨k, p.notes, s⟩ := by
  cases h with
  | still _ hplain =>
    rw [hplain kind hmem] at hk
    cases hk
  | operator ho hother =>
    have hall : ∀ e ∈ operands, e.1 ∉ moduleKinds := by decide
    exact (is_unique hother hk fun he => hall _ ho (he ▸ hmem)).elim
  | declaration hd => exact ⟨_, _, hd, rfl⟩

lemma Stepped.closes (h : Stepped place m p m' q) (hp : place.parent = none)
    (hm : m.is "Program" = true) :
    ∃ k, Closes m p.next p.state m' k ∧ q = ⟨k, p.notes, p.state⟩ := by
  cases h with
  | turned _ hroot =>
    rw [hroot hp] at hm
    cases hm
  | @program n k _ _ hc => exact ⟨k, hc, rfl⟩

end Overload.Lowering
