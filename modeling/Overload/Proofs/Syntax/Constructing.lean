import Overload.Proofs.Syntax.Phrases

/-! Member accesses, calls and `new` without optional links. -/

namespace Overload.Syntax.Access

def isPlain : Access → Bool
  | .link o _ _ => !o
  | .chain _ => false
  | _ => true

def promote : Access → Option Access
  | .link o e l =>
    match promote e, l with
    | some d, l => some (.link o d l)
    | none, .arguments as => some (.new e as)
    | none, _ => none
  | _ => none

def construct (e : Access) (as : List Access) : Access :=
  match promote e with
  | some d => .link false d (.arguments as)
  | none => .new e as

mutual

def regroup : Access → Access
  | .ident s => .ident s
  | .link o e l => .link o (regroup e) (regroupLink l)
  | .new e as =>
    if e.isWrapped then .new (regroup e) (regroupAll as) else construct (regroup e) (regroupAll as)
  | .chain e => .chain (regroup e)
termination_by structural e => e

def regroupLink : Link Access → Link Access
  | .name s => .name s
  | .property p => .property (regroup p)
  | .arguments as => .arguments (regroupAll as)
termination_by structural l => l

def regroupAll : List Access → List Access
  | [] => []
  | a :: as => regroup a :: regroupAll as
termination_by structural as => as

end

lemma regroupAll_eq_map (as : List Access) : regroupAll as = as.map regroup := by
  induction as with
  | nil => rfl
  | cons a as ih => rw [regroupAll, ih, List.map_cons]

lemma regroupLink_eq_map (l : Link Access) : regroupLink l = l.map regroup := by
  cases l <;> simp [regroupLink, Link.map, regroupAll_eq_map]

def isGrouped : Access → Bool
  | .new e _ => e.isWrapped || !e.hasCall
  | _ => true

lemma promote_eq_none {e : Access} : promote e = none ↔ e.hasCall = false := by
  fun_induction promote e with
  | case1 o e l d h ih => simp_all [hasCall]
  | case2 o e as h ih => simp [hasCall, Link.isCall]
  | case3 o e l h hl ih => cases l <;> simp_all [hasCall, Link.isCall]
  | case4 e h => cases e <;> simp_all [hasCall]

lemma promote_link {o : Bool} {e d : Access} {l : Link Access}
    (h : promote (.link o e l) = some d) :
    (∃ c, promote e = some c ∧ d = .link o c l) ∨
      promote e = none ∧ ∃ as, l = .arguments as ∧ d = .new e as := by
  unfold promote at h
  split at h
  · rename_i c hc
    exact .inl ⟨c, hc, by simpa using h.symm⟩
  · rename_i as hn
    exact .inr ⟨hn, as, rfl, by simpa using h.symm⟩
  · simp at h

inductive Stacks : List Token → Access → Prop
  | intro {ts : List Token} {e : Access} : e.hasOptional = false → Reads e.phrase ts e →
      (∀ d, promote e = some d → Stacks (.word "new" :: ts) d) → Stacks ts e

namespace Stacks

variable {ts : List Token} {e : Access}

lemma new {as : List Access} (h : Reads .memberExpression ts e)
    (has : ∀ a ∈ as, Reads .leftHandSide (tokens (pieces a)) (regroup a)) :
    Stacks (.word "new" :: ts ++ tokens (enclosed (separated (listed as))))
      (.new e (as.map regroup)) :=
  .intro rfl (.construct has h) (by simp [promote])

lemma member (h : Stacks ts e) (hp : promote e = none) : Reads .memberExpression ts e := by
  cases h with
  | intro ho hr =>
    rwa [phrase, ho, promote_eq_none.1 hp] at hr

lemma link {l : Link Access} (h : Stacks ts e) (hl : ReadsOperands regroup l) :
    Stacks (ts ++ tokens (linkPieces false l)) (.link false e (l.map regroup)) := by
  induction h with
  | @intro ts e ho hr hd ih =>
    have hextended := extended_phrase false e (l.map regroup)
    rw [Link.isCall_map] at hextended
    refine .intro ho (hr.link hl hextended) fun d hpromote => ?_
    rcases promote_link hpromote with ⟨c, hc, rfl⟩ | ⟨hn, as, has, rfl⟩
    · exact ih c hc
    · cases l with
      | arguments bs =>
        obtain rfl : bs.map regroup = as := by simpa [Link.map] using has
        have hmember : Reads .memberExpression ts e := (Stacks.intro ho hr hd).member hn
        simpa [linkPieces, questioned, Link.operands] using Stacks.new hmember hl.2
      | name s | property p => simp [Link.map] at has

lemma construct {as : List Access} (h : Stacks ts e)
    (has : ∀ a ∈ as, Reads .leftHandSide (tokens (pieces a)) (regroup a)) :
    Stacks (.word "new" :: ts ++ tokens (enclosed (separated (listed as))))
      (construct e (as.map regroup)) := by
  rw [Access.construct]
  split
  · rename_i d hd
    cases h with
    | intro ho hr h =>
      have := (h d hd).link (l := .arguments as) ⟨by simp, has⟩
      simpa [linkPieces, questioned, Link.map] using this
  · rename_i hn
    exact .new (h.member hn) has

lemma reads (h : Stacks ts e) : Reads .leftHandSide ts e := by
  cases h with
  | intro ho hr => exact reads_of_phrase ho hr

end Stacks

theorem stacks_regroup (e : Access) : e.every isNamed = true → e.every isPlain = true →
    Stacks (tokens (pieces e)) (regroup e) := by
  induction e using Access.induction with
  | ident s => exact fun h _ => .intro rfl (.ident h) (by simp [regroup, promote])
  | link o e l ih ihs =>
    intro hn hp
    obtain ⟨hname, hne, hnl⟩ := every_link.1 hn
    obtain ⟨ho, hpe, hpl⟩ := every_link.1 hp
    obtain rfl : o = false := by simpa [isPlain] using ho
    rw [pieces, tokens_append, regroup, regroupLink_eq_map]
    refine (ih hne hpe).link ⟨?_, fun x hx => (ihs x hx (hnl x hx) (hpl x hx)).reads⟩
    rintro s rfl
    exact hname
  | new e as ih ihs =>
    intro hn hp
    obtain ⟨-, hne, hna⟩ := every_new.1 hn
    obtain ⟨-, hpe, hpa⟩ := every_new.1 hp
    have has : ∀ a ∈ as, Reads .leftHandSide (tokens (pieces a)) (regroup a) :=
      fun a ha => (ihs a ha (hna a ha) (hpa a ha)).reads
    rw [pieces, regroup, regroupAll_eq_map]
    split
    · have := Stacks.new (.group (ih hne hpe).reads) has
      simpa [enclosed] using this
    · simpa using (ih hne hpe).construct has
  | chain e => simp [every, isPlain]

theorem regroup_eq_self (e : Access) : regroup e = e ↔ e.every isGrouped = true := by
  induction e using Access.induction with
  | ident s => simp [regroup, every, isGrouped]
  | link o e l ih ihs =>
    have hl : l.map regroup = l ↔ ∀ x ∈ l.operands, x.every isGrouped = true := by
      rw [Link.map_eq_self]
      exact forall₂_congr ihs
    rw [every_link, regroup, regroupLink_eq_map, ← ih, ← hl]
    simp [isGrouped]
  | new e as ih ihs =>
    have has : as.map regroup = as ↔ ∀ a ∈ as, a.every isGrouped = true := by
      rw [← forall₂_congr ihs]
      simpa using List.map_inj_left (l := as) (f := regroup) (g := id)
    rw [every_new, regroup, regroupAll_eq_map, ← ih, ← has, isGrouped]
    split
    · rename_i hw
      simp [hw]
    · rename_i hw
      rw [construct]
      split
      · -- The `new` goes to a call inside the callee, which the callee then has.
        rename_i d hd
        have hcall : regroup e = e → e.hasCall = true := by
          intro he
          by_contra hc
          rw [he, promote_eq_none.2 (by simpa using hc)] at hd
          simp at hd
        simp only [reduceCtorEq, false_iff, not_and]
        intro h he
        simp [hw, hcall he] at h
      · rename_i hd
        have hcall : regroup e = e → e.hasCall = false := fun he => promote_eq_none.1 (he ▸ hd)
        simp only [Access.new.injEq, hw, Bool.false_or, Bool.not_eq_true']
        exact ⟨fun h => ⟨hcall h.1, h⟩, fun h => h.2⟩
  | chain e ih => simp [regroup, every, isGrouped, ih]

/-- The text has one reading. It is the expression itself unless the callee of some `new` is a
member access with a call further inside, which is not put in parentheses: then the `new` takes the
arguments of that call. -/
theorem printed_new_takes_first_arguments {e : Access} {t : Tree} (hs : Shows e t)
    (hp : e.every isPlain = true) :
    ∃ text ts, Source.print t = .ok text ∧ lex text.toList = some ts ∧
      (∀ d, Reads .leftHandSide ts d ↔ d = regroup e) ∧
      (Reads .leftHandSide ts e ↔ e.every isGrouped = true) := by
  have hn := isNamed_of_shows e t hs
  have hr := (stacks_regroup e hn hp).reads
  have hiff (d : Access) : Reads .leftHandSide (tokens (pieces e)) d ↔ d = regroup e :=
    ⟨fun hd => hd.unique hr, fun hd => hd ▸ hr⟩
  refine ⟨_, tokens (pieces e), print_of_shows hs, by simpa using lex_pieces hn, hiff, ?_⟩
  rw [hiff, eq_comm, regroup_eq_self]

def nestedNew : Access :=
  .new (.new (.link false (.ident "f") (.arguments [.ident "x"])) [])
    [.link false (.ident "a") (.property (.link false (.ident "b") (.name "new")))]

theorem printed_new_takes_first_arguments_nested :
    nestedNew.every isPlain = true ∧ nestedNew.every isGrouped = true ∧
      ∃ text ts, Source.print nestedNew.tree = .ok text ∧ lex text.toList = some ts ∧
        (∀ d, Reads .leftHandSide ts d ↔ d = regroup nestedNew) ∧
        (Reads .leftHandSide ts nestedNew ↔ nestedNew.every isGrouped = true) :=
  ⟨by decide, by decide,
    printed_new_takes_first_arguments (shows_tree nestedNew (by decide)) (by decide)⟩

def memberOfCall : Access :=
  .new (.link false (.link false (.ident "f") (.arguments [])) (.name "x")) []

theorem printed_new_loses_its_callee :
    memberOfCall.every isPlain = true ∧ Shows memberOfCall memberOfCall.tree ∧
      Source.print memberOfCall.tree = .ok "new f().x()" ∧
      ∃ ts, lex "new f().x()".toList = some ts ∧ ¬ Reads .leftHandSide ts memberOfCall ∧
        Reads .leftHandSide ts (.link false
          (.link false (.new (.ident "f") []) (.name "x")) (.arguments [])) := by
  have hn : memberOfCall.every isNamed = true := by decide
  have hs := shows_tree memberOfCall hn
  have hr := (stacks_regroup memberOfCall hn (by decide)).reads
  have htext : chars (pieces memberOfCall) = "new f().x()".toList := by decide
  refine ⟨by decide, hs, print_of_chars hs htext, tokens (pieces memberOfCall),
    htext ▸ lex_pieces hn, fun h => ?_, hr⟩
  exact absurd ((regroup_eq_self memberOfCall).1 (h.unique hr).symm) (by decide)

end Overload.Syntax.Access
