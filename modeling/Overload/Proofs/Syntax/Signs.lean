import Overload.Proofs.Syntax.Terms

/-! Signs that stand side by side. -/

namespace Overload.Syntax

open Access Followed List

namespace Term

def followers : Term → List Char
  | .ident _ | .link _ _ _ => trailers
  | _ => closers

lemma closers_subset_followers (e : Term) : closers ⊆ followers e := by
  cases e with
  | ident s | link o e l => exact (by decide : closers ⊆ trailers)
  | _ => exact fun c hc => hc

def Spacing (e : Term) : Prop :=
  ∀ rest, Spaced rest → GoesOn (followers e) rest → Spaced (pieces e ++ rest)

lemma Spacing.atLeast {e : Term} (h : Spacing e) (least : Nat) :
    Followed closers (atLeast least e (pieces e)) :=
  guarded h (closers_subset_followers e (.head _)) fun _ => closers_subset_followers e

lemma followers_of_rank {e : Term} (hi : e.isInteger = false) (hr : 20 ≤ e.rank) :
    followers e = trailers := by
  cases e with
  | ident s => rfl
  | link o e l => rfl
  | integer z => simp [isInteger] at hi
  | binary op l r => exact absurd (Nat.le_trans hr (rank_levelOf_le op)) (by decide)
  | update op isBefore s => cases isBefore <;> simp [rank] at hr
  | _ => simp [rank] at hr

lemma Spacing.object {e : Term} (h : Spacing e) :
    Followed trailers (object e (pieces e)) := by
  have hc := closers_subset_followers e (.head _)
  rw [Term.object]
  split
  · exact Followed.enclosed h hc
  · rename_i hi
    refine guarded h hc fun hr => ?_
    rw [followers_of_rank (by simpa using hi) (by omega)]
    exact fun c hc => hc

lemma begins_object {e : Term}
    (h : 20 ≤ e.rank → e.isInteger = false → Begins (· ∉ signs) (pieces e)) :
    Begins (· ∉ signs) (object e (pieces e)) := by
  rw [object, atLeast]
  split
  · exact begins_enclosed (by decide) _
  · rename_i hi
    split
    · exact begins_enclosed (by decide) _
    · rename_i hr
      exact h (by omega) (by simpa using hi)

lemma begins_plain (e : Term) :
    ∀ t, Shows e t → 20 ≤ e.rank → e.isInteger = false → Begins (· ∉ signs) (pieces e) := by
  induction e using Term.induction with
  | ident s =>
    intro t h _ _
    cases h with
    | ident _ _ hs => exact begins_word ((Bool.and_eq_true _ _).mp hs).1
  | integer z => exact fun t _ _ hi => by simp [isInteger] at hi
  | link o e l ih _ =>
    intro t h _ _
    obtain ⟨u, hu⟩ : ∃ u, Shows e u := by
      cases h with
      | name _ _ hs | property _ _ hs | arguments _ _ hs => exact ⟨_, hs⟩
    exact (begins_object (ih u hu)).append _
  | binary op l r =>
    intro t _ hr
    exact absurd (Nat.le_trans hr (rank_levelOf_le op)) (by decide)
  | update op isBefore s =>
    intro t _ hr
    cases isBefore <;> simp [rank] at hr
  | _ =>
    intro t _ hr
    simp [rank] at hr

lemma begins_operand {op : PrefixOp} {e : Term} {t : Tree} (h : Shows e t)
    (hop : op.isWord = false) (hmeets : meets op e = false) (hmerges : merges op e = false) :
    Begins (fun c => (symbol op.token).mayFollow c = true) (atLeast 17 e (pieces e)) := by
  have hsigns : ∀ c, c ∉ signs → (symbol op.token).mayFollow c = true :=
    fun c hc => mayFollow_operator hop hc
  have hplain := begins_plain e t h
  rw [atLeast]
  split
  · exact begins_enclosed (hsigns _ (by decide)) _
  rename_i hrank
  cases h with
  | ident _ _ hs => exact (begins_word ((Bool.and_eq_true _ _).mp hs).1).mono hsigns
  | @integer z =>
    rw [pieces]
    split
    · -- a sign before a negative integer that does not merge with it is another one
      rename_i hz
      refine ⟨'-', _, rfl, ?_⟩
      revert hop hmerges
      cases op <;> simp [merges, hz, PrefixOp.isWord] <;> decide
    · exact (begins_number _).mono hsigns
  | @unary n op' e =>
    obtain ⟨c, cs, hs, hc⟩ := mayFollow_unary hop hmeets
    exact ⟨c, _, by rw [chars_unary, hs, cons_append], hc⟩
  | @update n op' isBefore s _ _ _ _ hs =>
    cases isBefore with
    | true => exact begins_symbol (mayFollow_update hop hmeets)
    | false =>
      have := begins_word ((Bool.and_eq_true _ _).mp hs).1
      exact (this.append [.token (symbol op'.token)]).mono hsigns
  | @binary _ op' =>
    have : (levelOf op').rank ≤ 16 := rank_levelOf_le op'
    simp only [rank] at hrank
    omega
  | conditional | sequence => simp [rank] at hrank
  | name | property | arguments => exact (hplain (Nat.le_refl 20) rfl).mono hsigns

lemma spacing_integer (z : Int) : Spacing (.integer z) := by
  intro rest hr hg
  have hnumber : Spaced ([.token (.number z.natAbs)] ++ rest) :=
    spaced_token rfl (fun c hc => mayFollow_number hc) hg hr
  rw [pieces]
  split
  · have hfollow : ∀ c, c ∉ signs → (Token.mark "-").mayFollow c = true :=
      fun c hc => @mayFollow_operator .neg rfl c hc
    exact spaced_token_begins (by decide) ((begins_number _).mono hfollow) hnumber
  · exact hnumber

lemma spacing_unary {op : PrefixOp} {e : Term} {t : Tree} (hs : Shows e t) (h : Spacing e) :
    Spacing (.unary op e) := by
  intro rest hr hg
  have hrest := h.atLeast 17 rest hr hg
  rw [pieces]
  split
  · rename_i hm
    cases e with
    | integer z =>
      have hz : z < 0 := (by simpa [merges] using hm : op = .neg ∧ z < 0).2
      have hnumber : Spaced (.token (.number z.natAbs) :: rest) :=
        spaced_token rfl (fun c hc => mayFollow_number hc) hg hr
      rw [pieces, if_pos hz]
      exact ⟨by decide, fun c _ => rfl, hnumber⟩
    | _ => simp [merges] at hm
  rename_i hmerges
  rw [cons_append, cons_append, append_assoc]
  split
  · exact spaced_token_gap (fits_unary op) hrest
  · rename_i hgap
    obtain ⟨hop, hm⟩ : op.isWord = false ∧ meets op e = false := by simpa using hgap
    rw [nil_append]
    exact spaced_token_begins (fits_unary op)
      (begins_operand hs hop hm (by simpa using hmerges)) hrest

lemma spacing_update {op : UpdateOp} {isBefore : Bool} {s : String} (hs : isName s = true) :
    Spacing (.update op isBefore s) := by
  have hany (c : Char) : (symbol op.token).mayFollow c = true := by cases op <;> rfl
  have hsubset : closers ⊆ trailers := by decide
  have hword := Access.followed_word hs
  intro rest hr hg
  cases isBefore with
  | true => exact ⟨fits_update op, fun c _ => hany c, hword rest hr (hg.mono hsubset)⟩
  | false =>
    have hsign : Spaced (.token (symbol op.token) :: rest) :=
      ⟨fits_update op, fun c _ => hany c, hr⟩
    exact hword _ hsign (goesOn_token rest (by cases op <;> decide))

lemma followed_listed {es : List Term} {ts : List Tree} (hs : Forall₂ Shows es ts)
    (ih : ∀ e ∈ es, ∀ t, Shows e t → Spacing e) : Followed closers (separated (listed es)) := by
  refine .separated ?_
  induction hs with
  | nil => simp [listed]
  | cons ht _ ihs =>
    rw [listed, forall_mem_cons]
    exact ⟨(ih _ (by simp) _ ht).atLeast 3, ihs fun d hd => ih d (by simp [hd])⟩

lemma goesOn_linkPieces (o : Bool) (l : Link Term) (rest : List Piece) :
    GoesOn trailers (linkPieces o l ++ rest) := by
  cases l <;> cases o <;> exact goesOn_token _ (by decide)

theorem spacing_of_shows (e : Term) : ∀ t, Shows e t → Spacing e := by
  induction e using Term.induction with
  | ident s =>
    intro t h
    cases h with
    | ident _ _ hs => exact Access.followed_word ((Bool.and_eq_true _ _).mp hs).1
  | integer z => exact fun t _ => spacing_integer z
  | unary op e ih =>
    intro t h
    cases h with
    | unary _ _ _ hs => exact spacing_unary hs (ih _ hs)
  | update op isBefore s =>
    intro t h
    cases h with
    | update _ _ _ _ hs => exact spacing_update ((Bool.and_eq_true _ _).mp hs).1
  | binary op l r ihl ihr =>
    intro t h
    cases h with
    | binary _ _ _ hl _ hr =>
      exact ((ihl _ hl).atLeast _).operator (by decide) (fits_binary op) ((ihr _ hr).atLeast _)
  | conditional c a b ihc iha ihb =>
    intro t h
    cases h with
    | conditional _ _ hc _ ha _ hb =>
      exact Followed.conditional ((ihc _ hc).atLeast 5) ((iha _ ha).atLeast 3) ((ihb _ hb).atLeast 3)
  | sequence es ih =>
    intro t h
    cases h with
    | sequence _ _ hs => exact followed_listed hs ih
  | link o e l ih ihs =>
    intro t h
    obtain ⟨u, hu, hl⟩ : ∃ u, Shows e u ∧ Followed trailers (linkPieces o l) := by
      cases h with
      | name _ _ hs _ _ hname => exact ⟨_, hs, followed_name o hname⟩
      | property _ _ hs _ _ _ hp =>
        refine ⟨_, hs, ?_⟩
        have hp := ihs _ (by simp [Link.operands]) _ hp
        rw [linkPieces, append_assoc]
        exact followed_questioned o
          (bracketed hp (closers_subset_followers _ (by decide)))
      | arguments _ _ hs _ _ has =>
        exact ⟨_, hs, followed_questioned o ((followed_listed has ihs).enclosed (by decide))⟩
    exact (ih u hu).object.append hl (goesOn_linkPieces o l)

theorem lex_pieces {e : Term} {t : Tree} (h : Shows e t) :
    lex (chars (pieces e)) = some (tokens (pieces e)) := by
  exact lex_chars (spaced (spacing_of_shows e t h))

mutual

/-- How many terms pass the test, among the term and all that it is made of. -/
def count (p : Term → Bool) : Term → Nat
  | .ident s => (p (.ident s)).toNat
  | .integer z => (p (.integer z)).toNat
  | .unary op e => (p (.unary op e)).toNat + count p e
  | .update op b s => (p (.update op b s)).toNat
  | .binary op l r => (p (.binary op l r)).toNat + count p l + count p r
  | .conditional c a b => (p (.conditional c a b)).toNat + count p c + count p a + count p b
  | .sequence es => (p (.sequence es)).toNat + countItems p es
  | .link o e l => (p (.link o e l)).toNat + count p e + countLink p l
termination_by structural e => e

def countLink (p : Term → Bool) : Link Term → Nat
  | .name _ => 0
  | .property e => count p e
  | .arguments as => countItems p as
termination_by structural l => l

def countItems (p : Term → Bool) : List Term → Nat
  | [] => 0
  | e :: es => count p e + countItems p es
termination_by structural es => es

end

def isUpdate (op : UpdateOp) : Term → Bool
  | .update op' _ _ => op' == op
  | _ => false

def isMerged : Term → Bool
  | .unary op e => merges op e
  | _ => false

def writes (op : UpdateOp) : Term → Bool
  | .update op' _ _ => op' == op
  | .unary op' e => op == .decrement && merges op' e
  | _ => false

def occurrences (op : UpdateOp) (ps : List Piece) : Nat := (tokens ps).count (.mark op.token)

section Occurrences

variable (op : UpdateOp)

@[simp] lemma occurrences_append (ps qs : List Piece) :
    occurrences op (ps ++ qs) = occurrences op ps + occurrences op qs := by
  simp [occurrences]

@[simp] lemma occurrences_gap (ps : List Piece) :
    occurrences op (.gap :: ps) = occurrences op ps := rfl

lemma occurrences_token {t : Token} (ht : t ≠ .mark "++" ∧ t ≠ .mark "--") (ps : List Piece) :
    occurrences op (.token t :: ps) = occurrences op ps := by
  have : t ≠ .mark op.token := by cases op <;> simp [UpdateOp.token, ht]
  rw [occurrences, tokens_token, count_cons_of_ne this, occurrences]

lemma occurrences_mark {m : String} (hm : m ≠ "++" ∧ m ≠ "--") (ps : List Piece) :
    occurrences op (mark m :: ps) = occurrences op ps :=
  occurrences_token op (by simpa using hm) ps

@[simp] lemma occurrences_nil : occurrences op [] = 0 := rfl

lemma occurrences_enclosed (ps : List Piece) :
    occurrences op (enclosed ps) = occurrences op ps := by
  rw [enclosed, cons_append, occurrences_mark op (by decide), occurrences_append,
    occurrences_mark op (by decide), occurrences_nil, Nat.add_zero]

@[simp] lemma occurrences_atLeast (least : Nat) (e : Term) (ps : List Piece) :
    occurrences op (atLeast least e ps) = occurrences op ps := by
  rw [atLeast]
  split
  · exact occurrences_enclosed op ps
  · rfl

@[simp] lemma occurrences_object (e : Term) (ps : List Piece) :
    occurrences op (object e ps) = occurrences op ps := by
  rw [object]
  split
  · exact occurrences_enclosed op ps
  · exact occurrences_atLeast op 20 e ps

@[simp] lemma occurrences_questioned (o : Bool) :
    occurrences op (questioned o) = 0 := by
  cases o with
  | true => exact occurrences_mark op (by decide) []
  | false => rfl

lemma occurrences_listed {es : List Term}
    (ih : ∀ e ∈ es, occurrences op (pieces e) = count (writes op) e) :
    occurrences op (separated (listed es)) = countItems (writes op) es := by
  induction es with
  | nil => rfl
  | cons e es ihs =>
    have he := ih e (by simp)
    have hes := ihs fun d hd => ih d (by simp [hd])
    rw [countItems, ← he, ← hes]
    cases es with
    | nil => simp [listed, separated, intercalate]
    | cons d es =>
      rw [listed, listed, separated_cons, occurrences_append, occurrences_mark op (by decide),
        occurrences_gap, occurrences_atLeast]

lemma occurrences_link {o : Bool} {l : Link Term}
    (ih : ∀ x ∈ l.operands, occurrences op (pieces x) = count (writes op) x) :
    occurrences op (linkPieces o l) = countLink (writes op) l := by
  cases l with
  | name s =>
    rw [linkPieces, occurrences_mark op (by cases o <;> decide),
      occurrences_token op (by simp)]
    rfl
  | property p =>
    have hp := ih p (by simp [Link.operands])
    rw [linkPieces, countLink, ← hp, append_assoc, occurrences_append,
      occurrences_questioned, cons_append, occurrences_mark op (by decide),
      occurrences_append, occurrences_mark op (by decide)]
    simp
  | arguments as =>
    rw [linkPieces, countLink, occurrences_append, occurrences_questioned, occurrences_enclosed,
      Nat.zero_add]
    exact occurrences_listed op ih

lemma occurrences_integer (z : Int) : occurrences op (pieces (.integer z)) = 0 := by
  have hnumber : occurrences op [.token (.number z.natAbs)] = 0 :=
    occurrences_token op (by simp) []
  rw [pieces]
  split
  · rw [occurrences_mark op (by decide), hnumber]
  · exact hnumber

lemma occurrences_update (op' : UpdateOp) :
    occurrences op [.token (symbol op'.token)] = (op' == op).toNat := by
  cases op <;> cases op' <;> rfl

lemma occurrences_unary (op' : PrefixOp) (e : Term) :
    occurrences op (pieces (.unary op' e)) =
      (op == .decrement && merges op' e).toNat + occurrences op (pieces e) := by
  rw [pieces]
  split
  · rename_i hm
    cases e with
    | integer z =>
      have hz : z < 0 := (by simpa [merges] using hm : op' = .neg ∧ z < 0).2
      have hnumber : occurrences op [.token (.number z.natAbs)] = 0 :=
        occurrences_token op (by simp) []
      rw [occurrences_integer, pieces, if_pos hz, tail_cons, hm, ← singleton_append,
        occurrences_append, hnumber]
      cases op <;> rfl
    | _ => simp [merges] at hm
  · rename_i hm
    rw [cons_append, occurrences_token op (by cases op' <;> decide)]
    split <;> simp [hm]

end Occurrences

theorem occurrences_pieces (op : UpdateOp) (e : Term) :
    occurrences op (pieces e) = count (writes op) e := by
  induction e using Term.induction with
  | ident s => rfl
  | integer z => exact occurrences_integer op z
  | unary op' e ih => rw [occurrences_unary, ih, count, writes]
  | update op' isBefore s =>
    have hword (ps : List Piece) : occurrences op (.token (.word s) :: ps) = occurrences op ps :=
      occurrences_token op (by simp) ps
    rw [count, writes, ← occurrences_update, pieces]
    cases isBefore with
    | true =>
      rw [if_pos rfl, ← singleton_append, occurrences_append, hword]
      rfl
    | false => rw [if_neg (by simp), hword]
  | binary op' l r ihl ihr =>
    have hop : symbol op'.token ≠ .mark "++" ∧ symbol op'.token ≠ .mark "--" := by
      cases op' <;> decide
    rw [pieces, occurrences_append, occurrences_gap, occurrences_token op hop, occurrences_gap,
      occurrences_atLeast, occurrences_atLeast, ihl, ihr, count]
    simp [writes]
  | conditional c a b ihc iha ihb =>
    rw [pieces, append_assoc, occurrences_append, cons_append, occurrences_gap,
      cons_append, occurrences_mark op (by decide), cons_append, occurrences_gap,
      occurrences_append, occurrences_gap, occurrences_mark op (by decide), occurrences_gap,
      occurrences_atLeast, occurrences_atLeast, occurrences_atLeast, ihc, iha, ihb, count]
    simp [writes, Nat.add_assoc]
  | sequence es ih =>
    rw [pieces, occurrences_listed op ih, count]
    simp [writes]
  | link o e l ih ihs =>
    rw [pieces, occurrences_append, occurrences_object, ih, occurrences_link op ihs, count]
    simp [writes]

lemma count_add {p q r : Term → Bool} (h : ∀ e, (p e).toNat = (q e).toNat + (r e).toNat)
    (e : Term) : count p e = count q e + count r e := by
  have hitems : ∀ es : List Term, (∀ e ∈ es, count p e = count q e + count r e) →
      countItems p es = countItems q es + countItems r es := by
    intro es ih
    induction es with
    | nil => rfl
    | cons e es ihs =>
      have he := ih e (by simp)
      have hes := ihs fun d hd => ih d (by simp [hd])
      simp only [countItems]
      omega
  induction e using Term.induction with
  | ident s | integer z => exact h _
  | unary op e ih =>
    have := h (.unary op e)
    simp only [count]
    omega
  | update op isBefore s => exact h _
  | binary op l rt ihl ihr =>
    have := h (.binary op l rt)
    simp only [count]
    omega
  | conditional c a b ihc iha ihb =>
    have := h (.conditional c a b)
    simp only [count]
    omega
  | sequence es ih =>
    have := h (.sequence es)
    have := hitems es ih
    simp only [count]
    omega
  | link o e l ih ihs =>
    have hlink : countLink p l = countLink q l + countLink r l := by
      cases l with
      | name s => rfl
      | property x => exact ihs x (by simp [Link.operands])
      | arguments as => exact hitems as ihs
    have := h (.link o e l)
    simp only [count]
    omega

lemma writes_increment : writes .increment = isUpdate .increment := by
  funext e
  cases e <;> simp [writes, isUpdate]

lemma count_writes_decrement (e : Term) :
    count (writes .decrement) e = count (isUpdate .decrement) e + count isMerged e := by
  apply count_add
  intro e
  cases e <;> simp [writes, isUpdate, isMerged]

def negated (t : Tree) : Tree :=
  .node 0 (.str "UnaryExpression") [("operator", .str "-"), ("argument", t)]

lemma shows_negated {e : Term} {t : Tree} (h : Shows e t) : Shows (.unary .neg e) (negated t) :=
  .unary (n := ⟨_, _, _⟩) rfl ⟨_, rfl, rfl⟩ rfl h

def numeral (z : Int) : Tree := .node 0 (.str "Literal") [("value", .num (.int z))]

lemma shows_numeral (z : Int) : Shows (.integer z) (numeral z) :=
  .integer ⟨⟨_, _, _⟩, rfl, rfl, rfl, rfl, rfl⟩

def manySigns : Term :=
  .binary .sub (.update .decrement true "x") (.unary .neg (.unary .neg (.integer (-3))))

def manySignsTree : Tree :=
  .node 0 (.str "BinaryExpression") [("operator", .str "-"),
    ("left", .node 0 (.str "UpdateExpression") [("operator", .str "--"), ("prefix", .bool true),
      ("argument", .node 0 (.str "Identifier") [("name", .str "x")])]),
    ("right", negated (negated (numeral (-3))))]

lemma shows_manySigns : Shows manySigns manySignsTree := by
  refine .binary (n := ⟨_, _, _⟩) rfl ⟨_, rfl, rfl⟩ rfl ?_ rfl
    (shows_negated (shows_negated (shows_numeral _)))
  exact .update (n := ⟨_, _, _⟩) rfl ⟨_, rfl, rfl⟩ ⟨_, rfl, rfl⟩
    ⟨_, rfl, ⟨_, _, _⟩, rfl, rfl, _, rfl, rfl⟩ (by decide)

end Term

end Overload.Syntax
