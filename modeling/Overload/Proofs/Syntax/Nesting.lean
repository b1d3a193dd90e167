import Overload.Proofs.Syntax.Statement

/-!
The grammar of statements, with the rule that an `else` belongs to the nearest `if` that can take
it: an `if` without `else` is not read where an `else` follows.
-/

namespace Overload.Syntax

open Source Clause List

variable {ts : List Token} {t : Token}

def HasFreeIn (ts : List Token) : Prop :=
  ∃ us vs, ts = us ++ .word "in" :: vs ∧ Pointless us ∧ height clauses us ≤ 0

/-- What the head of a loop must not be: a declaration starts with `let [`, `async of` starts a
function, and a free `in` before the first semicolon makes it a loop over names. -/
structure Clause.Permitted (ts : List Token) : Prop where
  letBracket : ¬ [.word "for", .mark "(", .word "let", .mark "["] <+: ts
  asyncOf : ¬ [.word "for", .mark "(", .word "async", .word "of"] <+: ts
  freeIn : ∀ is rest, ts = .word "for" :: .mark "(" :: is ++ .mark ";" :: rest →
    Balanced clauses is → ¬ HasFreeIn is

/-- An expression that is a statement does not start as a declaration does. -/
def Expr.Permitted (ts : List Token) : Prop := ¬ [.word "let", .mark "["] <+: ts

namespace Stmt

mutual

inductive Parses : List Token → Stmt → List Token → Prop
  | empty {rest : List Token} : Parses (.mark ";" :: rest) .empty rest
  | expression {ts rest : List Token} {e : Expr} : Reads .expression ts e → Expr.Permitted ts →
      Parses (ts ++ .mark ";" :: rest) (.expression e) rest
  | block {i rest : List Token} {ss : List Stmt} : ParsesAll i ss (.mark "\x7d" :: rest) →
      Parses (.mark "\x7b" :: i) (.block ss) rest
  | ifThen {ts i rest : List Token} {c : Expr} {s : Stmt} : Reads .expression ts c →
      Parses i s rest → rest.head? ≠ some (.word "else") →
      Parses (.word "if" :: .mark "(" :: ts ++ .mark ")" :: i) (.ifThen c s) rest
  | ifElse {ts i j rest : List Token} {c : Expr} {s d : Stmt} : Reads .expression ts c →
      Parses i s (.word "else" :: j) → Parses j d rest →
      Parses (.word "if" :: .mark "(" :: ts ++ .mark ")" :: i) (.ifElse c s d) rest
  | under {ts i rest : List Token} {k : Clause} {s : Stmt} : Clause.Reads ts k →
      Clause.Permitted ts → Parses i s rest → Parses (ts ++ i) (.under k s) rest
  | doWhile {ts i rest : List Token} {c : Expr} {s : Stmt} :
      Parses i s (.word "while" :: .mark "(" :: ts ++ .mark ")" :: .mark ";" :: rest) →
      Reads .expression ts c → Parses (.word "do" :: i) (.doWhile s c) rest

inductive ParsesAll : List Token → List Stmt → List Token → Prop
  | nil {i : List Token} : ParsesAll i [] i
  | cons {i j rest : List Token} {s : Stmt} {ss : List Stmt} : Parses i s j →
      ParsesAll j ss rest → ParsesAll i (s :: ss) rest

end

mutual

def Permitted : Stmt → Prop
  | .empty => True
  | .expression e => Expr.Permitted (Syntax.tokens (pieces e))
  | .block ss => PermittedAll ss
  | .ifThen _ s => Permitted s
  | .ifElse _ s d => Permitted s ∧ Permitted d
  | .under k s => Clause.Permitted (Syntax.tokens k.pieces) ∧ Permitted s
  | .doWhile s _ => Permitted s
termination_by structural s => s

def PermittedAll : List Stmt → Prop
  | [] => True
  | s :: ss => Permitted s ∧ PermittedAll ss
termination_by structural ss => ss

end

lemma permitted_asBlock (s : Stmt) : (asBlock s).Permitted ↔ s.Permitted := by
  rw [asBlock]
  split
  · rfl
  · simp [Permitted, PermittedAll]

theorem permitted_braced (s : Stmt) : s.braced.Permitted ↔ s.Permitted := by
  induction s using Stmt.induction with
  | empty | expression => rfl
  | block ss ih =>
    rw [braced, Permitted, Permitted]
    induction ss with
    | nil => rfl
    | cons s ss ihs =>
      rw [forall_mem_cons] at ih
      rw [bracedAll, PermittedAll, PermittedAll, ih.1, ihs ih.2]
  | ifThen c s ih | under k s ih | doWhile s c ih => simp only [braced, Permitted, ih]
  | ifElse c s d ihs ihd => simp only [braced, Permitted, permitted_asBlock, ihs, ihd]

end Stmt

def Token.leads : Token → Bool
  | .word s => isIdentifier s || ["while", "for", "with"].contains s
  | _ => false

lemma Clause.Reads.leads {k : Clause} (h : Reads ts k) :
    ∃ t rest, ts = t :: rest ∧ t.leads = true := by
  cases h with
  | label hs => exact ⟨_, _, rfl, by simp [Token.leads, hs]⟩
  | _ => exact ⟨_, _, rfl, by decide⟩

lemma Clause.Reads.not_start {k : Clause} (h : Reads ts k) (ht : t.leads = false)
    (more rest : List Token) : ts ++ more ≠ t :: rest := by
  obtain ⟨u, us, rfl, hu⟩ := h.leads
  intro he
  obtain ⟨rfl, -⟩ := cons.inj he
  rw [ht] at hu
  cases hu

lemma Clause.Reads.not_expression {us rest more : List Token} {k : Clause} {e : Expr}
    (h : Reads ts k) (hr : Syntax.Reads .expression us e) :
    us ++ .mark ";" :: rest ≠ ts ++ more := by
  intro he
  cases h with
  | @label s hs =>
    have hname : Balanced clauses [.word s] := .single rfl
    have := (hr.balanced fair_clauses).ends_alike (t := .mark ";") (u := .mark ":") hname
      (by decide) (by decide) he
    simp at this
  | whileTest | withObject | forSteps | forEach => exact hr.not_start (by decide) _ _ he

namespace Stmt

def Ends (t : Token) : Prop := t = .mark "\x7d" ∨ t = .word "else"

lemma Ends.opens (h : Ends t) : t.opens = false := by
  rcases h with rfl | rfl <;> decide

lemma Ends.leads (h : Ends t) : t.leads = false := by
  rcases h with rfl | rfl <;> decide

lemma Parses.not_start {i rest : List Token} {s : Stmt} (h : Parses i s rest) (ht : Ends t)
    (j : List Token) : i ≠ t :: j := by
  cases h with
  | expression hr => exact hr.not_start ht.opens _ _
  | under hk => exact hk.not_start ht.leads _ _
  | empty | block | ifThen | ifElse | doWhile => rcases ht with rfl | rfl <;> simp

structure Reading (s : Stmt) : Prop where
  start : ∀ t, Ends t → ∀ more rest, tokens s ++ more ≠ t :: rest
  iff : ∀ rest, s.isBlock = true ∨ rest.head? ≠ some (.word "else") → ∀ d rest',
    Parses (tokens s ++ rest) d rest' ↔ s.Permitted ∧ d = s ∧ rest' = rest

lemma reading_empty : Reading .empty := by
  refine ⟨?_, fun rest _ d rest' => ⟨fun h => ?_, ?_⟩⟩
  · rintro t (rfl | rfl) more rest <;> simp [tokens]
  · generalize hi : tokens .empty ++ rest = i at h
    cases h with
    | empty => simpa [tokens, Permitted, eq_comm] using hi
    | expression hr => exact absurd hi.symm (hr.not_start (by decide) _ _)
    | under hk => exact absurd hi.symm (hk.not_start (by decide) _ _)
    | block | ifThen | ifElse | doWhile => simp [tokens] at hi
  · rintro ⟨-, rfl, rfl⟩
    exact .empty

lemma reading_expression {e : Expr} (hr : Reads .expression (Syntax.tokens (pieces e)) e) :
    Reading (.expression e) := by
  have htokens (rest : List Token) : tokens (.expression e) ++ rest =
      Syntax.tokens (pieces e) ++ .mark ";" :: rest := by simp [tokens]
  refine ⟨fun t ht more rest => ?_, fun rest _ d rest' => ⟨fun h => ?_, ?_⟩⟩
  · rw [htokens]
    exact hr.not_start ht.opens _ _
  · rw [htokens] at h
    generalize hi : Syntax.tokens (pieces e) ++ .mark ";" :: rest = i at h
    cases h with
    | expression hr' hp =>
      obtain ⟨rfl, -, rfl⟩ := expressions_alike hr hr' (by decide) (by decide) hi
      rw [← append_cancel_right hi] at hp
      exact ⟨hp, rfl, rfl⟩
    | under hk => exact absurd hi (hk.not_expression hr)
    | empty | block | ifThen | ifElse | doWhile =>
      exact absurd hi (hr.not_start (by decide) _ _)
  · rintro ⟨hp, rfl, rfl⟩
    rw [htokens]
    exact .expression hr hp

lemma parsesAll_iff {ss : List Stmt} (h : ∀ s ∈ ss, Reading s) (rest : List Token) (ds : List Stmt)
    (rest' : List Token) :
    ParsesAll (tokensAll ss ++ .mark "\x7d" :: rest) ds (.mark "\x7d" :: rest') ↔
      PermittedAll ss ∧ ds = ss ∧ rest' = rest := by
  induction ss generalizing ds with
  | nil =>
    constructor
    · intro hp
      generalize hi : tokensAll [] ++ .mark "\x7d" :: rest = i at hp
      cases hp with
      | nil => simpa [tokensAll, PermittedAll, eq_comm] using hi
      | cons hs _ => exact absurd hi.symm (hs.not_start (.inl rfl) rest)
    · rintro ⟨-, rfl, rfl⟩
      exact .nil
  | cons s ss ih =>
    rw [forall_mem_cons] at h
    have htokens : tokensAll (s :: ss) ++ .mark "\x7d" :: rest =
        tokens s ++ (tokensAll ss ++ .mark "\x7d" :: rest) := by simp [tokensAll]
    have hguard : (tokensAll ss ++ .mark "\x7d" :: rest).head? ≠ some (.word "else") := by
      cases ss with
      | nil => simp [tokensAll]
      | cons d ds =>
        rw [tokensAll, append_assoc]
        intro hh
        obtain ⟨more, he⟩ := head?_eq_some_iff.1 hh
        exact (h.2 d (by simp)).start _ (.inr rfl) _ _ he
    have hread := h.1.iff _ (.inr hguard)
    rw [htokens]
    constructor
    · intro hp
      generalize hi : tokens s ++ (tokensAll ss ++ .mark "\x7d" :: rest) = i at hp
      cases hp with
      | nil => exact absurd hi (h.1.start _ (.inl rfl) _ _)
      | cons hs hss =>
        rw [← hi] at hs
        obtain ⟨hperm, rfl, rfl⟩ := (hread _ _).1 hs
        obtain ⟨hperms, rfl, rfl⟩ := (ih h.2 _).1 hss
        exact ⟨⟨hperm, hperms⟩, rfl, rfl⟩
    · rintro ⟨⟨hperm, hperms⟩, rfl, rfl⟩
      exact .cons ((hread s _).2 ⟨hperm, rfl, rfl⟩) ((ih h.2 ss).2 ⟨hperms, rfl, rfl⟩)

lemma reading_block {ss : List Stmt} (h : ∀ s ∈ ss, Reading s) : Reading (.block ss) := by
  have htokens (rest : List Token) : tokens (.block ss) ++ rest =
      .mark "\x7b" :: (tokensAll ss ++ .mark "\x7d" :: rest) := by simp [tokens]
  refine ⟨?_, fun rest _ d rest' => ⟨fun hp => ?_, ?_⟩⟩
  · rintro t (rfl | rfl) more rest <;> simp [tokens]
  · rw [htokens] at hp
    generalize hi : Token.mark "\x7b" :: (tokensAll ss ++ .mark "\x7d" :: rest) = i at hp
    cases hp with
    | block hss =>
      obtain ⟨-, rfl⟩ := cons.inj hi
      obtain ⟨hperm, rfl, rfl⟩ := (parsesAll_iff h rest _ _).1 hss
      exact ⟨hperm, rfl, rfl⟩
    | expression hr => exact absurd hi.symm (hr.not_start (by decide) _ _)
    | under hk => exact absurd hi.symm (hk.not_start (by decide) _ _)
    | empty | ifThen | ifElse | doWhile => simp at hi
  · rintro ⟨hperm, rfl, rfl⟩
    rw [htokens]
    exact .block ((parsesAll_iff h _ ss _).2 ⟨hperm, rfl, rfl⟩)

lemma reading_asBlock {s : Stmt} (h : Reading s) : Reading (asBlock s) := by
  rw [asBlock]
  split
  · exact h
  · exact reading_block (by simpa using h)

section If

variable {c : Expr} {s d : Stmt} {i rest : List Token}

lemma parses_if (hc : Reads .expression (Syntax.tokens (pieces c)) c)
    (h : Parses (.word "if" :: .mark "(" :: Syntax.tokens (pieces c) ++ .mark ")" :: i) d rest) :
    (∃ s, d = .ifThen c s ∧ Parses i s rest ∧ rest.head? ≠ some (.word "else")) ∨
      ∃ s e j, d = .ifElse c s e ∧ Parses i s (.word "else" :: j) ∧ Parses j e rest := by
  generalize hi : .word "if" :: .mark "(" :: Syntax.tokens (pieces c) ++ .mark ")" :: i = is at h
  cases h with
  | ifThen hc' hs hnone =>
    obtain ⟨rfl, -, rfl⟩ := expressions_alike (t := .mark ")") (u := .mark ")") hc hc'
      (by decide) (by decide) (by simpa using hi)
    exact .inl ⟨_, rfl, hs, hnone⟩
  | ifElse hc' hs hd =>
    obtain ⟨rfl, -, rfl⟩ := expressions_alike (t := .mark ")") (u := .mark ")") hc hc'
      (by decide) (by decide) (by simpa using hi)
    exact .inr ⟨_, _, _, rfl, hs, hd⟩
  | expression hr => exact absurd hi.symm (hr.not_start (by decide) _ _)
  | under hk => exact absurd hi.symm (hk.not_start (by decide) _ _)
  | empty | block | doWhile => simp at hi

lemma reading_ifThen (hc : Reads .expression (Syntax.tokens (pieces c)) c) (h : Reading s) :
    Reading (.ifThen c s) := by
  have htokens (rest : List Token) : tokens (.ifThen c s) ++ rest =
      .word "if" :: .mark "(" :: Syntax.tokens (pieces c) ++ .mark ")" :: (tokens s ++ rest) := by
    simp [tokens]
  refine ⟨?_, fun rest hrest d rest' => ?_⟩
  · rintro t (rfl | rfl) more rest <;> simp [tokens]
  have hnone : rest.head? ≠ some (.word "else") := by simpa [isBlock] using hrest
  have hread := h.iff rest (.inr hnone)
  rw [htokens]
  constructor
  · intro hp
    rcases parses_if hc hp with ⟨e, rfl, hs, -⟩ | ⟨e, f, j, rfl, hs, -⟩
    · obtain ⟨hperm, rfl, rfl⟩ := (hread _ _).1 hs
      exact ⟨hperm, rfl, rfl⟩
    · -- the body would end before an `else`, and none follows it
      obtain ⟨-, -, rfl⟩ := (hread _ _).1 hs
      exact absurd rfl hnone
  · rintro ⟨hperm, rfl, rfl⟩
    exact .ifThen hc ((hread s _).2 ⟨hperm, rfl, rfl⟩) hnone

lemma reading_ifElse (hc : Reads .expression (Syntax.tokens (pieces c)) c) (h : Reading s)
    (hb : s.isBlock = true) (hd : Reading d) : Reading (.ifElse c s d) := by
  have htokens (rest : List Token) : tokens (.ifElse c s d) ++ rest =
      .word "if" :: .mark "(" :: Syntax.tokens (pieces c) ++ .mark ")" ::
        (tokens s ++ .word "else" :: (tokens d ++ rest)) := by
    simp [tokens]
  refine ⟨?_, fun rest hrest e rest' => ?_⟩
  · rintro t (rfl | rfl) more rest <;> simp [tokens]
  have hnone : rest.head? ≠ some (.word "else") := by simpa [isBlock] using hrest
  have hread := h.iff (.word "else" :: (tokens d ++ rest)) (.inl hb)
  have hreadElse := hd.iff rest (.inr hnone)
  rw [htokens]
  constructor
  · intro hp
    rcases parses_if hc hp with ⟨f, rfl, hs, hend⟩ | ⟨f, g, j, rfl, hs, hg⟩
    · obtain ⟨-, -, rfl⟩ := (hread _ _).1 hs
      exact absurd rfl hend
    · obtain ⟨hperm, rfl, hj⟩ := (hread _ _).1 hs
      rw [(cons.inj hj).2] at hg
      obtain ⟨hpermElse, rfl, rfl⟩ := (hreadElse _ _).1 hg
      exact ⟨⟨hperm, hpermElse⟩, rfl, rfl⟩
  · rintro ⟨⟨hperm, hpermElse⟩, rfl, rfl⟩
    exact .ifElse hc ((hread s _).2 ⟨hperm, rfl, rfl⟩) ((hreadElse d _).2 ⟨hpermElse, rfl, rfl⟩)

end If

lemma reading_under {k : Clause} {s : Stmt} (hk : Clause.Reads (Syntax.tokens k.pieces) k)
    (h : Reading s) : Reading (.under k s) := by
  have htokens (rest : List Token) : tokens (.under k s) ++ rest =
      Syntax.tokens k.pieces ++ (tokens s ++ rest) := by simp [tokens]
  refine ⟨fun t ht more rest => ?_, fun rest hrest d rest' => ?_⟩
  · rw [htokens]
    exact hk.not_start ht.leads _ _
  have hnone : rest.head? ≠ some (.word "else") := by simpa [isBlock] using hrest
  have hread := h.iff rest (.inr hnone)
  rw [htokens]
  constructor
  · intro hp
    generalize hi : Syntax.tokens k.pieces ++ (tokens s ++ rest) = i at hp
    cases hp with
    | under hk' hpk hs =>
      obtain ⟨rfl, rfl⟩ := hk.alike hk' hi
      rw [← append_cancel_right hi] at hpk
      obtain ⟨hperm, rfl, rfl⟩ := (hread _ _).1 hs
      exact ⟨⟨hpk, hperm⟩, rfl, rfl⟩
    | expression hr => exact absurd hi.symm (hk.not_expression hr)
    | empty | block | ifThen | ifElse | doWhile =>
      exact absurd hi (hk.not_start (by decide) _ _)
  · rintro ⟨⟨hpk, hperm⟩, rfl, rfl⟩
    exact .under hk hpk ((hread s _).2 ⟨hperm, rfl, rfl⟩)

lemma reading_doWhile {s : Stmt} {c : Expr} (h : Reading s)
    (hc : Reads .expression (Syntax.tokens (pieces c)) c) : Reading (.doWhile s c) := by
  have htokens (rest : List Token) : tokens (.doWhile s c) ++ rest = .word "do" :: (tokens s ++
      (.word "while" :: .mark "(" :: Syntax.tokens (pieces c) ++ .mark ")" :: .mark ";" :: rest)) :=
    by simp [tokens]
  refine ⟨?_, fun rest _ d rest' => ?_⟩
  · rintro t (rfl | rfl) more rest <;> simp [tokens]
  have hread := h.iff (.word "while" :: .mark "(" :: Syntax.tokens (pieces c) ++
    .mark ")" :: .mark ";" :: rest) (.inr (by simp))
  rw [htokens]
  constructor
  · intro hp
    generalize hi : Token.word "do" :: (tokens s ++ (.word "while" :: .mark "(" ::
      Syntax.tokens (pieces c) ++ .mark ")" :: .mark ";" :: rest)) = i at hp
    cases hp with
    | doWhile hs hc' =>
      obtain ⟨-, rfl⟩ := cons.inj hi
      obtain ⟨hperm, rfl, hend⟩ := (hread _ _).1 hs
      obtain ⟨rfl, -, htail⟩ := expressions_alike (t := .mark ")") (u := .mark ")") hc' hc
        (by decide) (by decide) (by simpa using hend)
      exact ⟨hperm, rfl, (cons.inj htail).2⟩
    | expression hr => exact absurd hi.symm (hr.not_start (by decide) _ _)
    | under hk => exact absurd hi.symm (hk.not_start (by decide) _ _)
    | empty | block | ifThen | ifElse => simp at hi
  · rintro ⟨hperm, rfl, rfl⟩
    exact .doWhile ((hread s _).2 ⟨hperm, rfl, rfl⟩) hc

theorem reading_of_shows (s : Stmt) : ∀ t, Shows s t → Reading s.braced := by
  induction s using Stmt.induction with
  | empty => exact fun _ _ => reading_empty
  | expression e =>
    intro t h
    cases h with
    | expression _ he =>
      obtain ⟨u, -, hu⟩ := he
      exact reading_expression (reads_expr hu)
  | block ss ih =>
    intro t h
    cases h with
    | block _ hb hs =>
      apply reading_block
      clear hb
      induction hs with
      | nil => simp [bracedAll]
      | cons ht _ ihs =>
        rw [forall_mem_cons] at ih
        rw [bracedAll, forall_mem_cons]
        exact ⟨ih.1 _ ht, ihs ih.2⟩
  | ifThen c s ih =>
    intro t h
    cases h with
    | ifThen _ hc _ hs _ =>
      obtain ⟨u, -, hu⟩ := hc
      exact reading_ifThen (reads_expr hu) (ih _ hs)
  | ifElse c s d ihs ihd =>
    intro t h
    cases h with
    | ifElse _ hc _ hs _ hd =>
      obtain ⟨u, -, hu⟩ := hc
      have hblock : (asBlock s.braced).isBlock = true := by
        rw [asBlock]
        split
        · assumption
        · rfl
      exact reading_ifElse (reads_expr hu) (reading_asBlock (ihs _ hs)) hblock (ihd _ hd)
  | under k s ih =>
    intro t h
    cases h with
    | under hk _ hs => exact reading_under (Clause.reads_pieces hk) (ih _ hs)
  | doWhile s c ih =>
    intro t h
    cases h with
    | doWhile _ _ hs hc =>
      obtain ⟨u, -, hu⟩ := hc
      exact reading_doWhile (ih _ hs) (reads_expr hu)

lemma parses_tokens_iff {s : Stmt} {t : Tree} (h : Shows s t) (d : Stmt) (rest : List Token) :
    Parses (tokens s.braced) d rest ↔ s.Permitted ∧ d = s.braced ∧ rest = [] := by
  have := (reading_of_shows s t h).iff [] (.inr (by simp)) d rest
  rwa [append_nil, permitted_braced] at this

/-- A statement is printed, and its text is read as the statement with blocks before each `else`,
or not at all where a part is not permitted. -/
theorem parses_print_iff {s : Stmt} {t : Tree} (h : Shows s t) :
    ∃ text ts, print t = .ok text ∧ lex text.toList = some ts ∧
      ∀ d rest, Parses ts d rest ↔ s.Permitted ∧ d = s.braced ∧ rest = [] := by
  refine ⟨_, tokens s.braced, print_of_shows h, ?_, parses_tokens_iff h⟩
  rw [String.toList_ofList]
  exact (lexes_layout s t h).lex_eq

def hiddenIf : Stmt :=
  .ifElse (.ident "a") (.under (.label "l") (.under
    (.forEach .values (.declaration "const" [("v", none)]) (.ident "w"))
    (.ifThen (.ident "b") (.expression (.ident "x"))))) (.expression (.ident "y"))

def expressionTree (s : String) : Tree :=
  .node 0 (.str "ExpressionStatement") [("expression", named s)]

lemma shows_expressionTree {s : String} (h : isIdentifier s = true) :
    Shows (.expression (.ident s)) (expressionTree s) :=
  .expression (n := ⟨_, _, _⟩) rfl ⟨_, rfl, shows_named h⟩

def hiddenIfTree : Tree :=
  .node 0 (.str "IfStatement") [("test", named "a"), ("consequent",
    .node 0 (.str "LabeledStatement") [("label", named "l"), ("body",
      .node 0 (.str "ForOfStatement") [("left",
        .node 0 (.str "VariableDeclaration") [("kind", .str "const"), ("declarations", .list
          [.node 0 (.str "VariableDeclarator") [("id", named "v")]])]), ("right", named "w"),
        ("body", .node 0 (.str "IfStatement")
          [("test", named "b"), ("consequent", expressionTree "x")])])]),
    ("alternate", expressionTree "y")]

lemma shows_hiddenIf : Shows hiddenIf hiddenIfTree := by
  have hinner : Shows (.ifThen (.ident "b") (.expression (.ident "x")))
      (.node 0 (.str "IfStatement") [("test", named "b"), ("consequent", expressionTree "x")]) :=
    .ifThen (n := ⟨_, _, _⟩) rfl ⟨_, rfl, shows_named (by decide)⟩ rfl
      (shows_expressionTree (by decide)) rfl
  have hleft : Init.Shows (.declaration "const" [("v", none)])
      (.node 0 (.str "VariableDeclaration") [("kind", .str "const"), ("declarations", .list
        [.node 0 (.str "VariableDeclarator") [("id", named "v")]])]) :=
    ⟨⟨_, _, _⟩, rfl, rfl, ⟨_, rfl, rfl⟩, by decide, _, rfl, _, rfl,
      .cons ⟨⟨_, _, _⟩, rfl, rfl, ⟨_, rfl, shows_named (by decide)⟩, rfl⟩ .nil⟩
  refine .ifElse (n := ⟨_, _, _⟩) rfl ⟨_, rfl, shows_named (by decide)⟩ rfl ?_ rfl
    (shows_expressionTree (by decide))
  refine .under (n := ⟨_, _, _⟩) ⟨rfl, by decide, _, rfl, ⟨_, _, _⟩, rfl, rfl, _, rfl, rfl⟩ rfl ?_
  exact .under (n := ⟨_, _, _⟩) ⟨rfl, rfl, ⟨_, rfl, hleft⟩, rfl, _, rfl, shows_named (by decide)⟩
    rfl hinner

lemma permitted_of_not_mem (hlet : ¬ [.word "for", .mark "(", .word "let", .mark "["] <+: ts)
    (hasync : ¬ [.word "for", .mark "(", .word "async", .word "of"] <+: ts) (h : .mark ";" ∉ ts) :
    Clause.Permitted ts := by
  refine ⟨hlet, hasync, ?_⟩
  rintro is rest rfl
  simp at h

lemma permitted_hiddenIf : hiddenIf.Permitted :=
  ⟨⟨permitted_of_not_mem (by decide) (by decide) (by decide),
    permitted_of_not_mem (by decide) (by decide) (by decide),
    show ¬ _ <+: [Token.word "x"] by decide⟩, show ¬ _ <+: [Token.word "y"] by decide⟩

theorem parses_print_iff_hidden_if :
    hiddenIf.Shows hiddenIfTree ∧ hiddenIf.Permitted ∧
      print hiddenIfTree = .ok "if (a) \x7b\nl: for (const v of w) if (b) x;\n\x7d else y;" ∧
      ∃ text ts, print hiddenIfTree = .ok text ∧ lex text.toList = some ts ∧
        ∀ d rest, Parses ts d rest ↔ hiddenIf.Permitted ∧ d = hiddenIf.braced ∧ rest = [] :=
  ⟨shows_hiddenIf, permitted_hiddenIf, rfl, parses_print_iff shows_hiddenIf⟩

def branchedLoop : Stmt :=
  .ifElse (.ident "c") (.under (.forSteps (some (.expression membership)) none none) .empty) .empty

def branchedLoopTree : Tree :=
  .node 0 (.str "IfStatement") [("test", named "c"),
    ("consequent", (loopFrom membershipTree).toTree),
    ("alternate", .node 0 (.str "EmptyStatement") [])]

lemma shows_branchedLoop : Shows branchedLoop branchedLoopTree := by
  have hempty : Shows .empty (.node 0 (.str "EmptyStatement") []) := .empty (n := ⟨_, _, _⟩) rfl
  refine .ifElse (n := ⟨_, _, _⟩) rfl ⟨_, rfl, shows_named (by decide)⟩ rfl ?_ rfl hempty
  exact .under (n := loopFrom membershipTree) ⟨rfl, ⟨_, rfl, shows_membership⟩, rfl, rfl, rfl⟩ rfl
    hempty

theorem branched_loop_is_unreadable :
    branchedLoop.Shows branchedLoopTree ∧
      print branchedLoopTree = .ok "if (c) \x7b\nfor (a in b; ; ) ;\n\x7d else ;" ∧
      ∃ ts, lex "if (c) \x7b\nfor (a in b; ; ) ;\n\x7d else ;".toList = some ts ∧
        ∀ d rest, ¬ Parses ts d rest := by
  refine ⟨shows_branchedLoop, rfl, tokens branchedLoop.braced,
    (lexes_layout branchedLoop _ shows_branchedLoop).lex_eq, fun d rest h => ?_⟩
  obtain ⟨⟨⟨hloop, -⟩, -⟩, -⟩ := (parses_tokens_iff shows_branchedLoop d rest).1 h
  have hbalanced : Balanced clauses [.word "a", .word "in", .word "b"] :=
    .cons rfl (.cons rfl (.single rfl))
  exact hloop.freeIn [.word "a", .word "in", .word "b"] _ rfl hbalanced
    ⟨[.word "a"], [.word "b"], rfl, by simp [Pointless], by decide⟩

end Stmt

end Overload.Syntax
