import Overload.Proofs.Syntax.Writing

/-! No two tokens that are written side by side merge into one. -/

namespace Overload.Syntax

open List Overload.Syntax.Expr

variable {ps rest : List Piece} {e : Expr} {P : Char → Prop} {s : String} {t : Token}

def closers : List Char := [')', ']', ',', ' ']

def joiners : List Char := closers ++ ['(', '[', '.', '+', '-']

def followers (e : Expr) : List Char :=
  if 20 ≤ e.level.rank ∧ e.isNumber = false then joiners else closers

def GoesOn (cs : List Char) (ps : List Piece) : Prop := ∀ c ∈ (chars ps).head?, c ∈ cs

def Begins (P : Char → Prop) (ps : List Piece) : Prop := ∃ c cs, chars ps = c :: cs ∧ P c

lemma Begins.append (h : Begins P ps) (qs : List Piece) : Begins P (ps ++ qs) := by
  obtain ⟨c, cs, hc, hP⟩ := h
  exact ⟨c, cs ++ chars qs, by simp [hc], hP⟩

lemma Begins.mono {Q : Char → Prop} (h : Begins P ps) (hPQ : ∀ c, P c → Q c) : Begins Q ps := by
  obtain ⟨c, cs, hc, hP⟩ := h
  exact ⟨c, cs, hc, hPQ c hP⟩

lemma goesOn_token {cs : List Char} (ps : List Piece) (h : (t.chars.head?.any cs.contains) = true) :
    GoesOn cs (.token t :: ps) := by
  intro c hc
  obtain ⟨d, hd, hmem⟩ := (Option.any_eq_true _ _).1 h
  rw [chars_cons, Piece.chars, List.head?_append, hd] at hc
  obtain rfl : d = c := by simpa using hc
  simpa using hmem

lemma goesOn_gap {cs : List Char} (ps : List Piece) (h : ' ' ∈ cs) : GoesOn cs (.gap :: ps) := by
  intro c hc
  obtain rfl : ' ' = c := by simpa using hc
  exact h

lemma spaced_token {cs : List Char} {t : Token} {ps : List Piece} (ht : t.fits = true)
    (hc : ∀ c ∈ cs, t.mayFollow c = true) (hg : GoesOn cs ps) (hs : Spaced ps) :
    Spaced (.token t :: ps) :=
  ⟨ht, fun c h => hc c (hg c h), hs⟩

lemma mayFollow_blank (t : Token) : t.mayFollow ' ' = true := by
  cases t with
  | word s => exact (by decide : (!isNamePart ' ') = true)
  | number n =>
    exact (by decide : (!(' '.isDigit || ' ' == '.' || ' ' == '\\' || isNameStart ' ')) = true)
  | text s => rfl
  | mark m =>
    have hblank : ∀ q ∈ marks, ' ' ∉ q.toList := by decide
    have : ' ' ∉ Token.follow m := by
      rw [Token.follow, mem_append, not_or]
      constructor
      · rw [mem_filterMap]
        rintro ⟨q, hq, hmem⟩
        split at hmem
        · exact hblank q hq (mem_of_getElem? hmem)
        · simp at hmem
      · split <;> decide
    simpa [Token.mayFollow] using this

lemma spaced_token_gap (ht : t.fits = true) (hs : Spaced ps) : Spaced (.token t :: .gap :: ps) :=
  @spaced_token [' '] _ _ ht (by simp [mayFollow_blank]) (goesOn_gap ps (by simp)) hs

lemma mayFollow_word {c : Char} (hc : c ∈ joiners) : (Token.word s).mayFollow c = true := by
  have hall : ∀ c ∈ joiners, isNamePart c = false := forall_of_all (by decide)
  simp [Token.mayFollow, hall c hc]

lemma mayFollow_number {n : Nat} {c : Char} (hc : c ∈ closers) :
    (Token.number n).mayFollow c = true := by
  have hall : ∀ c ∈ closers, (c.isDigit || c == '.' || c == '\\' || isNameStart c) = false :=
    forall_of_all (by decide)
  rw [Token.mayFollow, hall c hc]
  rfl

lemma fits_unary (op : PrefixOp) : (symbol op.token).fits = true := by
  cases op <;> decide

lemma fits_update (op : UpdateOp) : (symbol op.token).fits = true := by
  cases op <;> decide

lemma fits_binary (op : BinaryOp) : (symbol op.token).fits = true := by
  cases op <;> decide

lemma fits_assign {op : Option BinaryOp} (h : op.all isAssignable = true) :
    (symbol (assignToken op)).fits = true := by
  cases op with
  | none => decide
  | some op =>
    revert h
    cases op <;> decide

lemma GoesOn.mono {cs ds : List Char} (h : GoesOn cs ps) (hcd : cs ⊆ ds) : GoesOn ds ps :=
  fun c hc => hcd (h c hc)

def Followed (cs : List Char) (ps : List Piece) : Prop :=
  ∀ rest, Spaced rest → GoesOn cs rest → Spaced (ps ++ rest)

namespace Followed

variable {cs ds : List Char} {qs : List Piece}

lemma spaced (h : Followed cs ps) : Spaced ps := by
  have := h [] trivial (by simp [GoesOn])
  rwa [List.append_nil] at this

lemma mono (h : Followed cs ps) (hs : ds ⊆ cs) : Followed ds ps :=
  fun rest hr hg => h rest hr (hg.mono hs)

lemma append (h : Followed cs ps) (hq : Followed ds qs) (hg : ∀ rest, GoesOn cs (qs ++ rest)) :
    Followed ds (ps ++ qs) := by
  intro rest hr hrest
  rw [List.append_assoc]
  exact h _ (hq rest hr hrest) (hg rest)

lemma worded (h : Followed cs ps) (ht : t.fits = true) : Followed cs (.token t :: .gap :: ps) :=
  fun rest hr hg => spaced_token_gap ht (h rest hr hg)

lemma enclosed (h : Followed cs ps) (hc : ')' ∈ cs) : Followed ds (enclosed ps) := by
  intro rest hr _
  have hclose : Spaced (mark ")" :: rest) := ⟨by decide, fun c _ => rfl, hr⟩
  have := h _ hclose (goesOn_token rest (by simpa using hc))
  rw [Syntax.enclosed, List.cons_append, List.cons_append, List.append_assoc]
  exact ⟨by decide, fun c _ => rfl, this⟩

lemma bracketed (h : Followed cs ps) (hc : ']' ∈ cs) :
    Followed ds (mark "[" :: ps ++ [mark "]"]) := by
  intro rest hr _
  have hclose : Spaced (mark "]" :: rest) := ⟨by decide, fun c _ => rfl, hr⟩
  have := h _ hclose (goesOn_token rest (by simpa using hc))
  rw [List.cons_append, List.cons_append, List.append_assoc]
  exact ⟨by decide, fun c _ => rfl, this⟩

lemma guarded {p : Prop} [Decidable p] (h : Followed cs ps) (hc : ')' ∈ cs) (hs : ¬p → ds ⊆ cs) :
    Followed ds (if p then Syntax.enclosed ps else ps) := by
  split
  · exact h.enclosed hc
  · rename_i hp
    exact h.mono (hs hp)

lemma operator (h : Followed cs ps) (hc : ' ' ∈ cs) (ht : t.fits = true) (hq : Followed ds qs) :
    Followed ds (ps ++ .gap :: .token t :: .gap :: qs) := by
  have hnext : Followed ds (.gap :: .token t :: .gap :: qs) := hq.worded ht
  exact h.append hnext fun _ => goesOn_gap _ hc

lemma conditional {rs : List Piece} (h : Followed closers ps) (hq : Followed closers qs)
    (hr : Followed closers rs) : Followed closers
      (ps ++ .gap :: mark "?" :: .gap :: qs ++ .gap :: mark ":" :: .gap :: rs) := by
  have := h.operator (t := .mark "?") (by decide) (by decide)
    (hq.operator (t := .mark ":") (by decide) (by decide) hr)
  simpa [mark] using this

lemma separated {items : List (List Piece)} (h : ∀ ps ∈ items, Followed closers ps) :
    Followed closers (separated items) := by
  intro rest hr hg
  induction items with
  | nil => simpa [Syntax.separated, intercalate] using hr
  | cons ps items ih =>
    rw [forall_mem_cons] at h
    cases items with
    | nil => simpa [Syntax.separated, intercalate] using h.1 rest hr hg
    | cons qs items =>
      rw [separated_cons, append_assoc]
      exact h.1 _ (spaced_token_gap (by decide) (ih h.2)) (goesOn_token _ (by decide))

end Followed

def Spacing (e : Expr) : Prop :=
  ∀ rest, Spaced rest → GoesOn (followers e) rest → Spaced (pieces e ++ rest)

lemma closers_subset_followers (e : Expr) : closers ⊆ followers e := by
  rw [followers]
  split
  · exact subset_append_left _ _
  · exact fun c hc => hc

lemma followers_subset_joiners (e : Expr) : followers e ⊆ joiners := by
  rw [followers]
  split
  · exact fun c hc => hc
  · exact subset_append_left _ _

lemma Spacing.atLeast (h : Spacing e) (least : Nat) :
    Followed closers (atLeast least e (pieces e)) :=
  Followed.guarded h (closers_subset_followers e (.head _)) fun _ => closers_subset_followers e

lemma Spacing.object (h : Spacing e) : Followed joiners (object e (pieces e)) := by
  have hc := closers_subset_followers e (.head _)
  rw [Syntax.object]
  split
  · exact Followed.enclosed h hc
  · rename_i hn
    refine Followed.guarded h hc fun hr => ?_
    rw [followers, if_pos ⟨by omega, by simpa using hn⟩]
    exact fun c hc => hc

def signs : List Char := ['=', '+', '-']

lemma begins_enclosed (hP : P '(') (ps : List Piece) : Begins P (enclosed ps) :=
  ⟨_, _, rfl, hP⟩

lemma begins_atLeast {least : Nat} (hP : P '(') (h : least ≤ e.level.rank → Begins P ps) :
    Begins P (atLeast least e ps) := by
  rw [atLeast]
  split
  · exact begins_enclosed hP ps
  · exact h (by omega)

lemma begins_object (hP : P '(') (h : 20 ≤ e.level.rank → Begins P ps) :
    Begins P (object e ps) := by
  rw [object]
  split
  · exact begins_enclosed hP ps
  · exact begins_atLeast hP h

lemma not_mem_signs_of_isNameStart {c : Char} (h : isNameStart c = true) : c ∉ signs := by
  have hs : ∀ c ∈ signs, isNameStart c = false := forall_of_all (by decide)
  intro hc
  simp [hs c hc] at h

lemma begins_name (h : isName s = true) :
    Begins (fun c => isNameStart c = true) [.token (.word s)] := by
  unfold isName at h
  split at h
  · simp at h
  · rename_i c cs he
    refine ⟨c, cs, by simp [he], ?_⟩
    exact ((Bool.and_eq_true _ _).mp h).1

lemma begins_word (h : isName s = true) : Begins (· ∉ signs) [.token (.word s)] :=
  (begins_name h).mono fun _ => not_mem_signs_of_isNameStart

lemma begins_number (n : Nat) : Begins (· ∉ signs) [.token (.number n)] := by
  obtain ⟨c, cs, he⟩ := List.exists_cons_of_ne_nil (Nat.toDigits_ne_nil (n := n) (b := 10))
  have hc : c ∈ Nat.toDigits 10 n := he ▸ List.mem_cons_self
  refine ⟨c, cs, by simp [he], fun hs => ?_⟩
  have hd : ∀ c ∈ signs, c.isDigit = false := forall_of_all (by decide)
  simpa [hd c hs] using Nat.isDigit_of_mem_toDigits (b := 10) (by omega) (by omega) hc

lemma begins_plain (e : Expr) :
    ∀ t, Shows e t → 18 ≤ e.level.rank → Begins (· ∉ signs) (pieces e) := by
  induction e using induction with
  | ident s =>
    intro t h _
    rw [Shows] at h
    obtain ⟨n, -, -, -, hs⟩ := h
    exact begins_word ((Bool.and_eq_true _ _).mp hs).1
  | number n => exact fun _ _ _ => begins_number n
  | text s => exact fun _ _ _ => ⟨_, _, rfl, by decide⟩
  | bool b => exact fun _ _ _ => begins_word (by cases b <;> decide)
  | null => exact fun _ _ _ => begins_word (by decide)
  | update op isBefore e ih =>
    intro t h hl
    rw [Shows] at h
    obtain ⟨n, -, -, -, -, ⟨a, -, ha⟩, -⟩ := h
    cases isBefore with
    | true => simp [level, Level.rank] at hl
    | false => exact (begins_atLeast (by decide) fun hl => ih a ha (by omega)).append _
  | member e s ih =>
    intro t h _
    rw [Shows] at h
    obtain ⟨n, -, -, ⟨a, -, ha⟩, -⟩ := h
    exact (begins_object (by decide) fun hl => ih a ha (by omega)).append _
  | index e p ih _ | call e es ih _ =>
    intro t h _
    rw [Shows] at h
    obtain ⟨n, -, -, ⟨a, -, ha⟩, -⟩ := h
    rw [pieces, append_assoc]
    exact (begins_object (by decide) fun hl => ih a ha (by omega)).append _
  | binary op l r =>
    intro t _ hl
    exact absurd (Nat.le_trans hl (rank_levelOf_le op)) (by decide)
  | _ =>
    intro t _ hl
    simp [level, Level.rank] at hl

lemma mayFollow_operator {op : PrefixOp} (hop : op.isWord = false) {c : Char} (hc : c ∉ signs) :
    (symbol op.token).mayFollow c = true := by
  have hf : ∀ c ∈ Token.follow op.token, c ∈ signs := by
    refine forall_of_all ?_
    revert hop
    cases op <;> decide
  have : symbol op.token = .mark op.token := by
    revert hop
    cases op <;> decide
  simpa [this, Token.mayFollow] using fun hmem => hc (hf c hmem)

lemma begins_symbol (h : ∃ c cs, s.toList = c :: cs ∧ P c) :
    Begins P (.token (symbol s) :: ps) := by
  obtain ⟨c, cs, hs, hP⟩ := h
  exact ⟨c, cs ++ chars ps, by simp [hs], hP⟩

lemma mayFollow_unary {op op' : PrefixOp} (hop : op.isWord = false)
    (hm : ((op == .pos || op == .neg) && op' == op) = false) :
    ∃ c cs, op'.token.toList = c :: cs ∧ (symbol op.token).mayFollow c = true := by
  revert hop hm
  cases op <;> cases op' <;>
    first | exact fun _ _ => ⟨_, _, rfl, by decide⟩ | simp [PrefixOp.isWord]

lemma mayFollow_update {op : PrefixOp} {op' : UpdateOp} (hop : op.isWord = false)
    (hm : (op == .pos && op' == .increment || op == .neg && op' == .decrement) = false) :
    ∃ c cs, op'.token.toList = c :: cs ∧ (symbol op.token).mayFollow c = true := by
  revert hop hm
  cases op <;> cases op' <;>
    first | exact fun _ _ => ⟨_, _, rfl, by decide⟩ | simp [PrefixOp.isWord]

lemma begins_operand {op : PrefixOp} {t : Tree} (h : Shows e t) (hop : op.isWord = false)
    (hm : meets op e = false) :
    Begins (fun c => (symbol op.token).mayFollow c = true) (atLeast 17 e (pieces e)) := by
  have hsigns : ∀ c, c ∉ signs → (symbol op.token).mayFollow c = true :=
    fun c hc => mayFollow_operator hop hc
  refine begins_atLeast (hsigns _ (by decide)) fun hl => ?_
  by_cases hlevel : 18 ≤ e.level.rank
  · exact (begins_plain e t h hlevel).mono hsigns
  · cases e with
    | unary op' e => exact begins_symbol (mayFollow_unary hop hm)
    | update op' isBefore e =>
      cases isBefore with
      | false => simp [Expr.level, Level.rank] at hlevel
      | true => exact begins_symbol (mayFollow_update hop hm)
    | await e => exact ⟨'a', _, rfl, hsigns _ (by decide)⟩
    | binary op l r =>
      revert hl
      cases op <;> simp [Expr.level, levelOf, Level.rank]
    | _ => simp [Expr.level, Level.rank] at hl hlevel

lemma spaced_token_begins (ht : t.fits = true) (hb : Begins (fun c => t.mayFollow c = true) ps)
    (hs : Spaced (ps ++ rest)) : Spaced (.token t :: (ps ++ rest)) := by
  obtain ⟨c, cs, hc, hP⟩ := hb
  refine ⟨ht, fun d hd => ?_, hs⟩
  obtain rfl : c = d := by simpa [hc] using hd
  exact hP

lemma spaced_operator (ht : t.fits = true) (hs : Spaced ps) :
    Spaced (.gap :: .token t :: .gap :: ps) :=
  spaced_token_gap ht hs

lemma followers_target (h : e.isTarget = true) : followers e = joiners := by
  rw [followers, if_pos]
  cases e <;> simp [isTarget] at h <;> simp [level, Level.rank, isNumber]

lemma atLeast_target (h : e.isTarget = true) (ps : List Piece) : atLeast 20 e ps = ps := by
  rw [atLeast, if_neg]
  cases e <;> simp [isTarget] at h <;> simp [level, Level.rank]

lemma followed_listed {es : List Expr} {ts : List Tree} (hs : ShowsAll es ts)
    (ih : ∀ e ∈ es, ∀ t, Shows e t → Spacing e) : Followed closers (separated (listed es)) := by
  refine .separated ?_
  induction es generalizing ts with
  | nil => simp [listed]
  | cons e es ihs =>
    obtain ⟨t, more, rfl, ht, hmore⟩ := hs
    rw [listed, forall_mem_cons]
    exact ⟨(ih e (by simp) t ht).atLeast 3, ihs hmore fun d hd => ih d (by simp [hd])⟩

lemma spaced_point (hs : isName s = true) (h : Spaced (.token (.word s) :: rest)) :
    Spaced (mark "." :: .token (.word s) :: rest) := by
  have hf : ∀ c ∈ Token.follow ".", isNameStart c = false := forall_of_all (by decide)
  have hpoint : Begins (fun c => (Token.mark ".").mayFollow c = true) [.token (.word s)] := by
    refine (begins_name hs).mono fun c hc => ?_
    simpa [Token.mayFollow] using fun hmem => by simp [hf c hmem] at hc
  exact spaced_token_begins (by decide) hpoint h

lemma followed_word (hs : isName s = true) : Followed joiners [.token (.word s)] :=
  fun _ hr hg => spaced_token hs (fun _ hc => mayFollow_word hc) hg hr

lemma spacing_unary {op : PrefixOp} {t : Tree} (hs : Shows e t) (h : Spacing e) :
    Spacing (.unary op e) := by
  intro rest hr hg
  have hrest := h.atLeast 17 rest hr hg
  rw [pieces, cons_append, cons_append, append_assoc]
  split
  · exact spaced_token_gap (fits_unary op) hrest
  · rename_i hgap
    obtain ⟨hop, hm⟩ : op.isWord = false ∧ meets op e = false := by simpa using hgap
    rw [nil_append]
    exact spaced_token_begins (fits_unary op) (begins_operand hs hop hm) hrest

lemma spacing_update {op : UpdateOp} {isBefore : Bool} (h : Spacing e) (he : e.isTarget = true) :
    Spacing (.update op isBefore e) := by
  have hany (c : Char) : (symbol op.token).mayFollow c = true := by
    cases op <;> rfl
  intro rest hr hg
  cases isBefore with
  | true => exact ⟨fits_update op, fun c _ => hany c, h.atLeast 17 rest hr hg⟩
  | false =>
    rw [pieces, if_neg (by simp), atLeast_target he, append_assoc]
    refine h _ ⟨fits_update op, fun c _ => hany c, hr⟩ ?_
    rw [followers_target he]
    exact goesOn_token rest (by cases op <;> decide)

lemma spacing_binary {op : BinaryOp} {l r : Expr} (hl : Spacing l) (hr : Spacing r) :
    Spacing (.binary op l r) := by
  have hf : followers (.binary op l r) = closers := by
    rw [followers, if_neg]
    cases op <;> simp [level, levelOf, Level.rank]
  rw [Spacing, hf]
  exact (hl.atLeast _).operator (by decide) (fits_binary op) (hr.atLeast _)

theorem spacing_pieces (e : Expr) : ∀ t, Shows e t → Spacing e := by
  induction e using induction with
  | ident s =>
    intro t h
    rw [Shows] at h
    obtain ⟨n, -, -, -, hs⟩ := h
    exact followed_word ((Bool.and_eq_true _ _).mp hs).1
  | number n =>
    exact fun t _ rest hr hg => spaced_token rfl (fun c hc => mayFollow_number hc) hg hr
  | text s => exact fun t _ rest hr hg => ⟨rfl, fun c _ => rfl, hr⟩
  | bool b => exact fun t _ => followed_word (by cases b <;> decide)
  | null => exact fun t _ => followed_word (by decide)
  | pause => exact fun t _ => (followed_word (by decide)).mono (followers_subset_joiners .pause)
  | unary op e ih =>
    intro t h
    rw [Shows] at h
    obtain ⟨n, -, -, -, a, -, ha⟩ := h
    exact spacing_unary ha (ih a ha)
  | update op isBefore e ih =>
    intro t h
    rw [Shows] at h
    obtain ⟨n, -, -, -, -, ⟨a, -, ha⟩, he⟩ := h
    exact spacing_update (ih a ha) he
  | binary op l r ihl ihr =>
    intro t h
    rw [Shows] at h
    obtain ⟨n, -, -, -, ⟨a, -, ha⟩, ⟨b, -, hb⟩⟩ := h
    exact spacing_binary (ihl a ha) (ihr b hb)
  | conditional c a b ihc iha ihb =>
    intro t h
    rw [Shows] at h
    obtain ⟨n, -, -, ⟨x, -, hc⟩, ⟨y, -, ha⟩, ⟨z, -, hb⟩⟩ := h
    exact Followed.conditional ((ihc x hc).atLeast 5) ((iha y ha).atLeast 3) ((ihb z hb).atLeast 3)
  | assign op e v ihe ihv =>
    intro t h
    rw [Shows] at h
    obtain ⟨n, -, -, -, hop, ⟨a, -, ha⟩, he, ⟨b, -, hb⟩⟩ := h
    exact Followed.operator (ihe a ha) (closers_subset_followers e (by decide)) (fits_assign hop)
      ((ihv b hb).atLeast 3)
  | sequence es ih =>
    intro t h
    rw [Shows] at h
    obtain ⟨n, -, -, ⟨c, -, ts, rfl, hs⟩, -⟩ := h
    exact followed_listed hs ih
  | await e ih =>
    intro t h
    rw [Shows] at h
    obtain ⟨n, -, -, a, -, ha⟩ := h
    exact ((ih a ha).atLeast 17).worded (by decide)
  | yield e ih =>
    intro t h
    rw [Shows] at h
    obtain ⟨n, -, -, ⟨a, -, ha⟩, -⟩ := h
    exact ((ih a ha).atLeast 3).worded (by decide)
  | delegate e ih =>
    intro t h rest hr hg
    rw [Shows] at h
    obtain ⟨n, -, -, ⟨a, -, ha⟩, -⟩ := h
    have := ((ih a ha).atLeast 3).worded (t := .mark "*") (by decide) rest hr hg
    exact spaced_token (by decide) (@forall_of_all ['*'] _ _ (by decide))
      (goesOn_token _ (by decide)) this
  | member e s ih =>
    intro t h
    rw [Shows] at h
    obtain ⟨n, -, -, ⟨a, -, ha⟩, -, -, hs, -⟩ := h
    have hname : Followed joiners [mark ".", .token (.word s)] :=
      fun rest hr hg => spaced_point hs (followed_word hs rest hr hg)
    exact (ih a ha).object.append hname fun _ => goesOn_token _ (by decide)
  | index e p ih ihp =>
    intro t h
    rw [Shows] at h
    obtain ⟨n, -, -, ⟨a, -, ha⟩, -, -, ⟨b, -, hb⟩⟩ := h
    have hp : Followed joiners _ :=
      Followed.bracketed (ihp b hb) (closers_subset_followers p (by decide))
    have := (ih a ha).object.append hp fun _ => goesOn_token _ (by decide)
    rwa [← append_assoc] at this
  | call e es ih ihs =>
    intro t h
    rw [Shows] at h
    obtain ⟨n, -, -, ⟨a, -, ha⟩, -, ⟨c, -, ts, rfl, hs⟩⟩ := h
    have hes : Followed joiners _ := (followed_listed hs ihs).enclosed (by decide)
    have := (ih a ha).object.append hes fun _ => goesOn_token _ (by decide)
    rwa [enclosed, ← append_assoc] at this

end Overload.Syntax
