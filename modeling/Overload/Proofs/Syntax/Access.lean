import Overload.Proofs.Syntax.Spacing

/-!
Names with what is put behind them: member accesses and calls, optional or not, `new` and chains.
-/

namespace Overload.Syntax

open List Source Spells Followed

variable {t : Tree} {rest : List Piece}

inductive Link (α : Type) where
  | name (s : String)
  | property (p : α)
  | arguments (as : List α)

namespace Link

variable {α β : Type}

def operands : Link α → List α
  | .name _ => []
  | .property p => [p]
  | .arguments as => as

def map (f : α → β) : Link α → Link β
  | .name s => .name s
  | .property p => .property (f p)
  | .arguments as => .arguments (as.map f)

def isCall : Link α → Bool
  | .arguments _ => true
  | _ => false

@[simp] lemma isCall_map (f : α → β) (l : Link α) : (l.map f).isCall = l.isCall := by
  cases l <;> rfl

lemma map_eq_self {f : α → α} {l : Link α} : l.map f = l ↔ ∀ x ∈ l.operands, f x = x := by
  cases l with
  | name s | property p => simp [map, operands]
  | arguments as => simpa [map, operands] using map_inj_left (l := as) (f := f) (g := id)

end Link

/-- A chain is as far as an optional link that finds nothing skips the links behind it. -/
inductive Access where
  | ident (name : String)
  | link (isOptional : Bool) (object : Access) (link : Link Access)
  | new (callee : Access) (arguments : List Access)
  | chain (expression : Access)

theorem Access.induction {P : Access → Prop} (ident : ∀ s, P (.ident s))
    (link : ∀ o e l, P e → (∀ x ∈ l.operands, P x) → P (.link o e l))
    (new : ∀ e as, P e → (∀ a ∈ as, P a) → P (.new e as)) (chain : ∀ e, P e → P (.chain e))
    (e : Access) : P e := by
  refine @Access.rec P (fun l => ∀ x ∈ l.operands, P x) (fun as => ∀ a ∈ as, P a) ident link new
    chain ?_ ?_ ?_ ?_ ?_ e
  · simp [Link.operands]
  · simp [Link.operands]
  · exact fun as h => h
  · simp
  · intro a as ha has
    simpa using ⟨ha, has⟩

namespace Access

def isWrapped : Access → Bool
  | .link _ _ l => l.isCall
  | .chain _ => true
  | _ => false

def hasCall : Access → Bool
  | .link _ e l => l.isCall || e.hasCall
  | _ => false

def hasOptional : Access → Bool
  | .link o e _ => o || e.hasOptional
  | _ => false

mutual

def every (p : Access → Bool) : Access → Bool
  | .ident s => p (.ident s)
  | .link o e l => p (.link o e l) && every p e && everyOperand p l
  | .new e as => p (.new e as) && every p e && everyItem p as
  | .chain e => p (.chain e) && every p e
termination_by structural e => e

def everyOperand (p : Access → Bool) : Link Access → Bool
  | .name _ => true
  | .property e => every p e
  | .arguments as => everyItem p as
termination_by structural l => l

def everyItem (p : Access → Bool) : List Access → Bool
  | [] => true
  | a :: as => every p a && everyItem p as
termination_by structural as => as

end

lemma everyItem_eq_all (p : Access → Bool) (as : List Access) :
    everyItem p as = as.all (every p) := by
  induction as with
  | nil => rfl
  | cons a as ih => rw [everyItem, ih, all_cons]

lemma every_link {p : Access → Bool} {o : Bool} {e : Access} {l : Link Access} :
    every p (.link o e l) = true ↔
      p (.link o e l) = true ∧ every p e = true ∧ ∀ x ∈ l.operands, every p x = true := by
  cases l <;>
    simp [every, everyOperand, everyItem_eq_all, Link.operands, Bool.and_eq_true, and_assoc]

lemma every_new {p : Access → Bool} {e : Access} {as : List Access} :
    every p (.new e as) = true ↔
      p (.new e as) = true ∧ every p e = true ∧ ∀ a ∈ as, every p a = true := by
  simp [every, everyItem_eq_all, Bool.and_eq_true, and_assoc]

lemma every_chain {p : Access → Bool} {e : Access} :
    every p (.chain e) = true ↔ p (.chain e) = true ∧ every p e = true := by
  simp [every]

/-- The tree is the node that stands for the expression, whatever other fields it has. -/
inductive Shows : Access → Tree → Prop
  | ident {n : Node} {s : String} : n.kind = .str Kind.identifier.name →
      Field "name" (· = .str s) n → isIdentifier s = true → Shows (.ident s) n.toTree
  | name {n : Node} {o : Bool} {e : Access} {t : Tree} {s : String} :
      n.kind = .str Kind.memberExpression.name → n.get? "object" = some t → Shows e t →
      Flag "optional" o n → Flag "computed" false n → isName s = true →
      Field "property" (OfKind .identifier (Field "name" (· = .str s))) n →
      Shows (.link o e (.name s)) n.toTree
  | property {n : Node} {o : Bool} {e p : Access} {t u : Tree} :
      n.kind = .str Kind.memberExpression.name → n.get? "object" = some t → Shows e t →
      Flag "optional" o n → Flag "computed" true n → n.get? "property" = some u → Shows p u →
      Shows (.link o e (.property p)) n.toTree
  | arguments {n : Node} {o : Bool} {e : Access} {as : List Access} {t : Tree} {ts : List Tree} :
      n.kind = .str Kind.callExpression.name → n.get? "callee" = some t → Shows e t →
      Flag "optional" o n → n.get? "arguments" = some (.list ts) → Forall₂ Shows as ts →
      Shows (.link o e (.arguments as)) n.toTree
  | new {n : Node} {e : Access} {as : List Access} {t : Tree} {ts : List Tree} :
      n.kind = .str Kind.newExpression.name → n.get? "callee" = some t → Shows e t →
      n.get? "arguments" = some (.list ts) → Forall₂ Shows as ts →
      Shows (.new e as) n.toTree
  | chain {n : Node} {e : Access} {t : Tree} : n.kind = .str Kind.chainExpression.name →
      n.get? "expression" = some t → Shows e t → Shows (.chain e) n.toTree

mutual

def tree : Access → Tree
  | .ident s => .node 0 (.str "Identifier") [("name", .str s)]
  | .link o e l => linkTree o (tree e) l
  | .new e as => .node 0 (.str "NewExpression") [("callee", tree e), ("arguments", .list (trees as))]
  | .chain e => .node 0 (.str "ChainExpression") [("expression", tree e)]
termination_by structural e => e

def linkTree (o : Bool) (object : Tree) : Link Access → Tree
  | .name s => .node 0 (.str "MemberExpression") [("object", object),
    ("property", .node 0 (.str "Identifier") [("name", .str s)]), ("computed", .bool false),
    ("optional", .bool o)]
  | .property p => .node 0 (.str "MemberExpression") [("object", object), ("property", tree p),
    ("computed", .bool true), ("optional", .bool o)]
  | .arguments as => .node 0 (.str "CallExpression") [("callee", object),
    ("arguments", .list (trees as)), ("optional", .bool o)]
termination_by structural l => l

def trees : List Access → List Tree
  | [] => []
  | a :: as => tree a :: trees as
termination_by structural as => as

end

def isNamed : Access → Bool
  | .ident s => isIdentifier s
  | .link _ _ (.name s) => isName s
  | _ => true

lemma forall_of_forall₂ {P : Access → Prop} {as : List Access} {ts : List Tree}
    (hs : Forall₂ Shows as ts) (h : ∀ a ∈ as, ∀ t, Shows a t → P a) : ∀ a ∈ as, P a := by
  induction hs with
  | nil => simp
  | cons ht _ ih =>
    rw [forall_mem_cons]
    exact ⟨h _ (by simp) _ ht, ih fun a ha => h a (by simp [ha])⟩

theorem isNamed_of_shows (e : Access) : ∀ t, Shows e t → e.every isNamed = true := by
  induction e using Access.induction with
  | ident s =>
    intro t h
    cases h with
    | ident _ _ hs => exact hs
  | link o e l ih ihs =>
    intro t h
    rw [every_link]
    cases h with
    | name _ _ he _ _ hs _ => exact ⟨hs, ih _ he, by simp [Link.operands]⟩
    | property _ _ he _ _ _ hp =>
      have := ihs _ (by simp [Link.operands]) _ hp
      exact ⟨rfl, ih _ he, by simpa [Link.operands] using this⟩
    | arguments _ _ he _ _ has => exact ⟨rfl, ih _ he, forall_of_forall₂ has ihs⟩
  | new e as ih ihs =>
    intro t h
    cases h with
    | new _ _ he _ has => exact every_new.2 ⟨rfl, ih _ he, forall_of_forall₂ has ihs⟩
  | chain e ih =>
    intro t h
    cases h with
    | chain _ _ he => exact every_chain.2 ⟨rfl, ih _ he⟩

lemma forall₂_shows_trees {as : List Access} (h : ∀ a ∈ as, Shows a (tree a)) :
    Forall₂ Shows as (trees as) := by
  induction as with
  | nil => exact .nil
  | cons a as ih => exact .cons (h a (by simp)) (ih fun b hb => h b (by simp [hb]))

theorem shows_tree (e : Access) : e.every isNamed = true → Shows e (tree e) := by
  induction e using Access.induction with
  | ident s => exact fun h => .ident (n := ⟨_, _, _⟩) rfl ⟨_, rfl, rfl⟩ h
  | link o e l ih ihs =>
    intro h
    obtain ⟨hp, he, hops⟩ := every_link.1 h
    have hoperands : ∀ x ∈ l.operands, Shows x (tree x) := fun x hx => ihs x hx (hops x hx)
    cases l with
    | name s =>
      exact .name (n := ⟨_, _, _⟩) rfl rfl (ih he) rfl rfl hp ⟨_, rfl, ⟨_, _, _⟩, rfl, rfl, _, rfl, rfl⟩
    | property p =>
      exact .property (n := ⟨_, _, _⟩) rfl rfl (ih he) rfl rfl rfl
        (hoperands p (by simp [Link.operands]))
    | arguments as =>
      exact .arguments (n := ⟨_, _, _⟩) rfl rfl (ih he) rfl rfl (forall₂_shows_trees hoperands)
  | new e as ih ihs =>
    intro h
    obtain ⟨-, he, has⟩ := every_new.1 h
    exact .new (n := ⟨_, _, _⟩) rfl rfl (ih he) rfl
      (forall₂_shows_trees fun a ha => ihs a ha (has a ha))
  | chain e ih =>
    intro h
    exact .chain (n := ⟨_, _, _⟩) rfl rfl (ih (every_chain.1 h).2)

def questioned (o : Bool) : List Piece := if o then [mark "?."] else []

mutual

def pieces : Access → List Piece
  | .ident s => [.token (.word s)]
  | .link o e l => pieces e ++ linkPieces o l
  | .new e as => .token (.word "new") :: .gap ::
    (if e.isWrapped then enclosed (pieces e) else pieces e) ++ enclosed (separated (listed as))
  | .chain e => pieces e
termination_by structural e => e

def linkPieces (o : Bool) : Link Access → List Piece
  | .name s => [mark (if o then "?." else "."), .token (.word s)]
  | .property p => questioned o ++ mark "[" :: pieces p ++ [mark "]"]
  | .arguments as => questioned o ++ enclosed (separated (listed as))
termination_by structural l => l

def listed : List Access → List (List Piece)
  | [] => []
  | a :: as => pieces a :: listed as
termination_by structural as => as

end

lemma listed_eq_map (as : List Access) : listed as = as.map pieces := by
  induction as with
  | nil => rfl
  | cons a as ih => rw [listed, ih, map_cons]

def kinds : List Kind :=
  [.identifier, .memberExpression, .callExpression, .newExpression, .chainExpression]

lemma Shows.exists_node {e : Access} (h : Shows e t) :
    ∃ n : Node, ∃ k ∈ kinds, t = n.toTree ∧ n.kind = .str k.name := by
  cases h with
  | ident hk | name hk | property hk | arguments hk | new hk | chain hk =>
    exact ⟨_, _, by decide, rfl, hk⟩

lemma Shows.isNull {e : Access} (h : Shows e t) : t.isNull = false := by
  obtain ⟨n, -, -, rfl, -⟩ := h.exists_node
  rfl

lemma Shows.precedence {e : Access} (h : Shows e t) : ∃ p ≥ 20, Source.precedence t = .ok p := by
  obtain ⟨n, k, hmem, rfl, hk⟩ := h.exists_node
  simp only [Source.precedence, asNode_toTree, kind?_of_kind hk, ok_bind]
  revert hmem k
  simp only [kinds, forall_mem_cons]
  exact ⟨fun _ => ⟨_, by decide, rfl⟩, fun _ => ⟨_, by decide, rfl⟩, fun _ => ⟨_, by decide, rfl⟩,
    fun _ => ⟨_, by decide, rfl⟩, fun _ => ⟨_, by decide, rfl⟩, by simp⟩

lemma Shows.operand {e : Access} {t : Tree} (h : Shows e t) {least : Nat} (hl : least ≤ 20) :
    Source.operand t least = .ok [.tree t] := by
  obtain ⟨p, hp, he⟩ := h.precedence
  have : ¬ p < least := by omega
  simp [Source.operand, he, this]

lemma Shows.objectOperand {e : Access} (h : Shows e t) :
    Source.objectOperand t = .ok [.tree t] := by
  have hn : isNumberLiteral t = .ok false := by
    obtain ⟨n, k, hmem, rfl, hk⟩ := h.exists_node
    have hne : (Tree.str k.name).isText "Literal" = false := by
      revert hmem k
      simp only [kinds, forall_mem_cons]
      exact ⟨fun _ => rfl, fun _ => rfl, fun _ => rfl, fun _ => rfl, fun _ => rfl, by simp⟩
    simp [isNumberLiteral, kind_toTree hk, hne]
  simp only [Source.objectOperand, hn, ok_bind, Bool.false_eq_true, if_false]
  exact h.operand (by decide)

def Written (e : Access) (t : Tree) : Prop := Spells t (chars (pieces e))

lemma printsItem_of_shows {as : List Access} {ts : List Tree} (hs : Forall₂ Shows as ts)
    (ih : ∀ a ∈ as, ∀ t, Shows a t → Written a t) :
    Forall₂ PrintsItem ts ((listed as).map chars) := by
  induction hs with
  | nil => exact .nil
  | cons ht _ ihs =>
    refine .cons ((ih _ (by simp) _ ht).bare ?_) (ihs fun a ha => ih a (by simp [ha]))
    rw [listItem, ht.isNull]
    exact ht.operand (by decide)

lemma isNull_of_shows {as : List Access} {ts : List Tree} (hs : Forall₂ Shows as ts) :
    ∀ t ∈ ts, t.isNull = false := by
  induction hs with
  | nil => simp
  | cons ht _ ih => simpa using ⟨ht.isNull, ih⟩

lemma expand_new {n : Node} {e : Access} {qs : List Source.Part} (ht : n.get? "callee" = some t)
    (hs : Shows e t) (ha : Source.arguments n = .ok qs) :
    expandKind n .newExpression = .ok (.text "new " ::
      (if e.isWrapped then Source.parenthesized t else [.tree t]) ++ qs) := by
  obtain ⟨p, hp, hprec⟩ := hs.precedence
  have hlevel : ¬ p < memberLevel := by simpa [memberLevel] using hp
  have hkind : (t.kind >>= fun kind => kind.among ["CallExpression", "ChainExpression"]) =
      .ok e.isWrapped := by
    cases hs with
    | ident hk | name hk | property hk | arguments hk | new hk | chain hk =>
      rw [kind_toTree hk]
      rfl
  rw [expandKind, Source.new, attr_of_get? ht]
  cases hk : t.kind with
  | error fault =>
    rw [hk] at hkind
    cases hkind
  | ok kind =>
    have hamong : kind.among ["CallExpression", "ChainExpression"] = .ok e.isWrapped := by
      simpa [hk] using hkind
    cases hw : e.isWrapped <;>
      simp [hk, hamong, hw, hprec, hlevel, ha]

theorem written_of_shows (e : Access) : ∀ t, Shows e t → Written e t := by
  induction e using Access.induction with
  | ident s =>
    intro t h
    cases h with
    | ident hk hs _ =>
      simpa [Written, pieces] using spells_identifier ⟨_, rfl, hk, hs⟩
  | link o e l ih ihs =>
    intro t h
    have hquestion : chars (questioned o) = if o then "?.".toList else [] := by cases o <;> rfl
    cases h with
    | name hk ht hs ho hc _ hn =>
      have := spells_name hk ht ho hc hn (bare (ih _ hs) hs.objectOperand)
      simpa [Written, pieces, linkPieces] using this
    | property hk ht hs ho hc hu hp =>
      have := spells_property hk ht ho hc hu (bare (ih _ hs) hs.objectOperand)
        (bare (ihs _ (by simp [Link.operands]) _ hp) (hp.operand (by decide)))
      cases o <;>
        simpa [Written, pieces, linkPieces, questioned] using this
    | arguments hk ht hs ho hts has =>
      have := spells_arguments (printsItem_of_shows has ihs) (isNull_of_shows has) hk ht ho hts
        (bare (ih _ hs) hs.objectOperand)
      rw [← chars_separated, ← chars_enclosed] at this
      simpa [Written, pieces, linkPieces, hquestion] using this
  | new e as ih ihs =>
    intro t h
    cases h with
    | @new n _ _ t ts hk ht hs hts has =>
      have hhead : SpellsAs (.ok (if e.isWrapped then Source.parenthesized t else [.tree t]))
          (chars (if e.isWrapped then enclosed (pieces e) else pieces e)) := by
        split
        · rw [chars_enclosed]
          exact Spells.parenthesized (ih _ hs)
        · exact bare (ih _ hs) rfl
      obtain ⟨ps, hps, hp⟩ := hhead
      obtain rfl := Except.ok.inj hps
      obtain ⟨qs, ha, hq⟩ :=
        spells_list (printsItem_of_shows has ihs) (isNull_of_shows has) hts
      refine spells_of_expand hk _ (expand_new ht hs ha) ?_
      rw [← chars_separated, ← chars_enclosed] at hq
      simpa [pieces] using
        Renders.text (s := "new ") (hp.append hq)
  | chain e ih =>
    intro t h
    cases h with
    | @chain n _ t hk ht hs =>
      refine spells_of_expand hk [.tree t] ?_ (by rw [pieces]; exact ih _ hs)
      simp [expandKind, attr_of_get? ht]

theorem print_of_shows {e : Access} (h : Shows e t) :
    Source.print t = .ok (String.ofList (chars (pieces e))) :=
  Spells.print (written_of_shows e t h)

lemma print_of_chars {e : Access} {text : String} (h : Shows e t)
    (hc : chars (pieces e) = text.toList) : Source.print t = .ok text := by
  rw [print_of_shows h, hc, String.ofList_toList]

def trailers : List Char := '?' :: joiners

lemma followed_word {s : String} (hs : isName s = true) : Followed trailers [.token (.word s)] := by
  have hall : ∀ c ∈ trailers, isNamePart c = false := forall_of_all (by decide)
  exact fun _ hr hg => spaced_token hs (fun c hc => by simp [Token.mayFollow, hall c hc]) hg hr

lemma followed_name (o : Bool) {s : String} (hs : isName s = true) :
    Followed trailers [mark (if o then "?." else "."), .token (.word s)] := by
  intro rest hr hg
  have hword := followed_word hs rest hr hg
  cases o with
  | true => exact ⟨by decide, fun c _ => rfl, hword⟩
  | false => exact spaced_point hs hword

lemma followed_questioned (o : Bool) {cs : List Char} {ps : List Piece} (h : Followed cs ps) :
    Followed cs (questioned o ++ ps) := by
  cases o with
  | true => exact fun rest hr hg => ⟨by decide, fun c _ => rfl, h rest hr hg⟩
  | false => exact h

def Spacing (e : Access) : Prop :=
  ∀ rest, Spaced rest → GoesOn trailers rest → Spaced (pieces e ++ rest)

lemma followed_arguments {as : List Access} (h : ∀ a ∈ as, Spacing a) :
    Followed trailers (enclosed (separated (listed as))) := by
  refine Followed.enclosed (.separated ?_) (by decide)
  rw [listed_eq_map, forall_mem_map]
  exact fun a ha => mono (h a ha) (by decide)

lemma goesOn_linkPieces (o : Bool) (l : Link Access) (rest : List Piece) :
    GoesOn trailers (linkPieces o l ++ rest) := by
  cases l <;> cases o <;> exact goesOn_token _ (by decide)

theorem spacing_of_isNamed (e : Access) : e.every isNamed = true → Spacing e := by
  induction e using Access.induction with
  | ident s => exact fun h => followed_word ((Bool.and_eq_true _ _).mp h).1
  | link o e l ih ihs =>
    intro h
    obtain ⟨hname, he, hops⟩ := every_link.1 h
    refine append (ih he) ?_ (goesOn_linkPieces o l)
    cases l with
    | name s => exact followed_name o hname
    | property p =>
      have hp := ihs p (by simp [Link.operands]) (hops p (by simp [Link.operands]))
      rw [linkPieces, append_assoc]
      exact followed_questioned o (bracketed hp (by decide))
    | arguments as =>
      exact followed_questioned o (followed_arguments fun a ha => ihs a ha (hops a ha))
  | new e as ih ihs =>
    intro h
    obtain ⟨-, he, has⟩ := every_new.1 h
    have hhead : Followed trailers (if e.isWrapped then enclosed (pieces e) else pieces e) :=
      guarded (ih he) (by decide) fun _ _ hc => hc
    exact (hhead.append (followed_arguments fun a ha => ihs a ha (has a ha))
      fun _ => goesOn_token _ (by decide)).worded (by decide)
  | chain e ih => exact fun h => ih (every_chain.1 h).2

theorem lex_pieces {e : Access} (h : e.every isNamed = true) :
    lex (chars (pieces e)) = some (tokens (pieces e)) := by
  exact lex_chars (spaced (spacing_of_isNamed e h))

end Access

end Overload.Syntax
