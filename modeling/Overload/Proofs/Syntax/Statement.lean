import Overload.Proofs.Syntax.ClauseWriting

/-! Statements, the trees that show them, and how they are written. -/

namespace Overload.Syntax

open Source Clause

variable {t : Tree} {n : Node}

inductive Stmt where
  | empty
  | expression (e : Expr)
  | block (body : List Stmt)
  | ifThen (test : Expr) (consequent : Stmt)
  | ifElse (test : Expr) (consequent alternate : Stmt)
  | under (clause : Clause) (body : Stmt)
  | doWhile (body : Stmt) (test : Expr)

namespace Stmt

theorem induction {P : Stmt → Prop} (empty : P .empty) (expression : ∀ e, P (.expression e))
    (block : ∀ ss, (∀ s ∈ ss, P s) → P (.block ss)) (ifThen : ∀ c s, P s → P (.ifThen c s))
    (ifElse : ∀ c s d, P s → P d → P (.ifElse c s d)) (under : ∀ k s, P s → P (.under k s))
    (doWhile : ∀ s c, P s → P (.doWhile s c)) (s : Stmt) : P s := by
  refine @Stmt.rec P (fun ss => ∀ s ∈ ss, P s) empty expression block ifThen ifElse under doWhile
    ?_ ?_ s
  · simp
  · intro s ss hs hss
    simpa using ⟨hs, hss⟩

/-- The tree is the node that stands for the statement, whatever other fields it has. -/
inductive Shows : Stmt → Tree → Prop
  | empty {n : Node} : n.kind = .str Kind.emptyStatement.name → Shows .empty n.toTree
  | expression {n : Node} {e : Expr} : n.kind = .str Kind.expressionStatement.name →
      Field "expression" (Syntax.Shows e) n → Shows (.expression e) n.toTree
  | block {n : Node} {ss : List Stmt} {ts : List Tree} :
      n.kind = .str Kind.blockStatement.name → n.get? "body" = some (.list ts) →
      List.Forall₂ Shows ss ts → Shows (.block ss) n.toTree
  | ifThen {n : Node} {c : Expr} {s : Stmt} {t : Tree} : n.kind = .str Kind.ifStatement.name →
      Field "test" (Syntax.Shows c) n → n.get? "consequent" = some t → Shows s t →
      n.get "alternate" = .null → Shows (.ifThen c s) n.toTree
  | ifElse {n : Node} {c : Expr} {s d : Stmt} {t u : Tree} :
      n.kind = .str Kind.ifStatement.name → Field "test" (Syntax.Shows c) n →
      n.get? "consequent" = some t → Shows s t → n.get? "alternate" = some u → Shows d u →
      Shows (.ifElse c s d) n.toTree
  | under {n : Node} {k : Clause} {s : Stmt} {t : Tree} : k.Shows n → n.get? "body" = some t →
      Shows s t → Shows (.under k s) n.toTree
  | doWhile {n : Node} {s : Stmt} {c : Expr} {t : Tree} :
      n.kind = .str Kind.doWhileStatement.name → n.get? "body" = some t → Shows s t →
      Field "test" (Syntax.Shows c) n → Shows (.doWhile s c) n.toTree

def isBlock : Stmt → Bool
  | .block _ => true
  | _ => false

def asBlock (s : Stmt) : Stmt := if s.isBlock then s else .block [s]

mutual

/-- The same statement with a block for the consequent of each `if` that has an `else`. -/
def braced : Stmt → Stmt
  | .empty => .empty
  | .expression e => .expression e
  | .block ss => .block (bracedAll ss)
  | .ifThen c s => .ifThen c (braced s)
  | .ifElse c s d => .ifElse c (asBlock (braced s)) (braced d)
  | .under k s => .under k (braced s)
  | .doWhile s c => .doWhile (braced s) c
termination_by structural s => s

def bracedAll : List Stmt → List Stmt
  | [] => []
  | s :: ss => braced s :: bracedAll ss
termination_by structural ss => ss

end

def elsePieces : List Piece := [.gap, .token (.word "else"), .gap]

mutual

def layout : Stmt → List Char
  | .empty => chars [mark ";"]
  | .expression e => chars (pieces e ++ [mark ";"])
  | .block ss => chars [mark "\x7b"] ++ '\n' :: layoutAll ss ++ chars [mark "\x7d"]
  | .ifThen c s => chars (tested "if" c ++ [.gap]) ++ layout s
  | .ifElse c s d =>
    chars (tested "if" c ++ [.gap]) ++ layout s ++ chars elsePieces ++ layout d
  | .under k s => chars k.pieces ++ layout s
  | .doWhile s c => chars [.token (.word "do"), .gap] ++ layout s ++
    chars (.gap :: tested "while" c ++ [mark ";"])
termination_by structural s => s

def layoutAll : List Stmt → List Char
  | [] => []
  | s :: ss => layout s ++ '\n' :: layoutAll ss
termination_by structural ss => ss

end

mutual

def tokens : Stmt → List Token
  | .empty => [.mark ";"]
  | .expression e => Syntax.tokens (pieces e) ++ [.mark ";"]
  | .block ss => .mark "\x7b" :: tokensAll ss ++ [.mark "\x7d"]
  | .ifThen c s => .word "if" :: .mark "(" :: Syntax.tokens (pieces c) ++ .mark ")" :: tokens s
  | .ifElse c s d => .word "if" :: .mark "(" :: Syntax.tokens (pieces c) ++ .mark ")" ::
    tokens s ++ .word "else" :: tokens d
  | .under k s => Syntax.tokens k.pieces ++ tokens s
  | .doWhile s c => .word "do" :: tokens s ++ .word "while" :: .mark "(" ::
    Syntax.tokens (pieces c) ++ [.mark ")", .mark ";"]
termination_by structural s => s

def tokensAll : List Stmt → List Token
  | [] => []
  | s :: ss => tokens s ++ tokensAll ss
termination_by structural ss => ss

end

lemma lexes_block {ss : List Stmt} (h : Lexes (layoutAll ss) (tokensAll ss)) :
    Lexes (layout (.block ss)) (tokens (.block ss)) := by
  have hopen : Lexes (chars [mark "\x7b"]) [.mark "\x7b"] :=
    lexes_of_spaced (p := mark "\x7b") ⟨by decide, fun c _ => rfl, trivial⟩ rfl
      ⟨by decide, fun c => rfl⟩
  have hclose : Lexes (chars [mark "\x7d"]) [.mark "\x7d"] :=
    lexes_of_spaced (p := mark "\x7d") ⟨by decide, fun c _ => rfl, trivial⟩ rfl
      ⟨by decide, fun c => rfl⟩
  have hline : Lexes ['\n'] [] := .blank (by decide)
  have := (hopen.append (hline.append h)).append hclose
  simpa [layout, tokens] using this

lemma lexes_asBlock {s : Stmt} (h : Lexes (layout s) (tokens s)) :
    Lexes (layout (asBlock s)) (tokens (asBlock s)) := by
  rw [asBlock]
  split
  · exact h
  · have hline : Lexes ['\n'] [] := .blank (by decide)
    apply lexes_block
    simpa [layoutAll, tokensAll] using h.append hline

lemma lexes_tested (word : String) {e : Expr} {p : Piece} (hw : isName word = true)
    (h : Syntax.Shows e t) (hs : Spaced [p]) (hp : p.isFinal) :
    Lexes (chars (tested word e ++ [p])) (Syntax.tokens (tested word e ++ [p])) :=
  lexes_of_spaced (spaced_tested hw h hs) (by simp) hp

lemma spaced_final : Spaced [mark ";"] := ⟨by decide, fun c _ => rfl, trivial⟩

lemma isFinal_semicolon : (mark ";").isFinal := ⟨by decide, fun c => rfl⟩

lemma getLast?_clause (k : Clause) : k.pieces.getLast? = some .gap := by
  cases k with
  | label s => rfl
  | _ =>
    rw [Clause.pieces, List.getLast?_append]
    rfl

theorem lexes_layout (s : Stmt) :
    ∀ t, Shows s t → Lexes (layout s.braced) (tokens s.braced) := by
  induction s using Stmt.induction with
  | empty => exact fun t _ => lexes_of_spaced spaced_final rfl isFinal_semicolon
  | expression e =>
    intro t h
    cases h with
    | expression _ he =>
      obtain ⟨u, -, hu⟩ := he
      have hs : Spaced (pieces e ++ [mark ";"]) :=
        spaced_semicolon (spaced_expr hu) trivial
      have := lexes_of_spaced hs (by simp) isFinal_semicolon
      simpa [braced, layout, tokens] using this
  | block ss ih =>
    intro t h
    cases h with
    | block _ hb hs =>
      rw [braced]
      apply lexes_block
      clear hb
      induction hs with
      | nil => exact fun ds => by simp [bracedAll, layoutAll, tokensAll]
      | cons ht _ ihs =>
        have hline : Lexes ['\n'] [] := .blank (by decide)
        have := (ih _ (by simp) _ ht).append (hline.append (ihs fun s hs => ih s (by simp [hs])))
        simpa [bracedAll, layoutAll, tokensAll] using this
  | ifThen c s ih =>
    intro t h
    cases h with
    | ifThen _ hc _ hs _ =>
      obtain ⟨u, -, hu⟩ := hc
      have hif := lexes_tested "if" (p := .gap) (by decide) hu trivial trivial
      have := hif.append (ih _ hs)
      simpa [braced, layout, tokens, tokens_tested] using this
  | ifElse c s d ihs ihd =>
    intro t h
    cases h with
    | ifElse _ hc _ hs _ hd =>
      obtain ⟨u, -, hu⟩ := hc
      have hif := lexes_tested "if" (p := .gap) (by decide) hu trivial trivial
      have helse : Lexes (chars elsePieces) [.word "else"] :=
        lexes_of_spaced (p := .gap) (spaced_operator (by decide) trivial) rfl trivial
      have := ((hif.append (lexes_asBlock (ihs _ hs))).append helse).append (ihd _ hd)
      simpa [braced, layout, tokens, tokens_tested] using this
  | under k s ih =>
    intro t h
    cases h with
    | under hk _ hs =>
      have hclause := lexes_of_spaced (spaced_pieces hk) (getLast?_clause k) trivial
      simpa [braced, layout, tokens] using hclause.append (ih _ hs)
  | doWhile s c ih =>
    intro t h
    cases h with
    | doWhile _ _ hs hc =>
      obtain ⟨u, -, hu⟩ := hc
      have hdo : Lexes (chars [.token (.word "do"), .gap]) [.word "do"] :=
        lexes_of_spaced (p := .gap) (spaced_token_gap (by decide) trivial) rfl trivial
      have hgap : Lexes [' '] [] := .blank (by decide)
      have hwhile := lexes_tested "while" (by decide) hu spaced_final isFinal_semicolon
      have := (hdo.append (ih _ hs)).append (hgap.append hwhile)
      simpa [braced, layout, tokens, tokens_tested] using this

def Written (s : Stmt) (t : Tree) : Prop := Spells t (layout s.braced)

def startKinds : List Kind :=
  [.identifier, .literal, .unaryExpression, .updateExpression, .awaitExpression, .yieldExpression]

lemma leftmost_here {k : Kind} (hk : n.kind = .str k.name) (hmem : k ∈ startKinds)
    (hs : start n = .ok .here) :
    ∃ m : Node, ∃ k ∈ startKinds, leftmost n.toTree = .ok m ∧ m.kind = .str k.name :=
  ⟨n, k, hmem, leftmost_of_here hs, hk⟩

lemma leftmost_of_shows (e : Expr) : ∀ t, Syntax.Shows e t →
    ∃ m : Node, ∃ k ∈ startKinds, leftmost t = .ok m ∧ m.kind = .str k.name := by
  induction e using Expr.induction with
  | ident | number | text | bool | null | unary | await | pause | yield | delegate =>
    intro t h
    obtain ⟨n, rfl, hk⟩ := h.exists_node
    exact leftmost_here hk (by simp [Expr.kind, startKinds]) (by rw [start, kind?_of_kind hk]; rfl)
  | update op isBefore e ih =>
    intro t h
    rw [Syntax.Shows] at h
    obtain ⟨n, rfl, hk, -, ⟨b, hb, htruthy⟩, ⟨a, ha, hs⟩, -⟩ := h
    have hstart : start n = .ok (if isBefore then .here else .field "argument") := by
      simp [start, kind?_of_kind hk, attr_of_get? hb, htruthy]
    cases isBefore with
    | true => exact leftmost_here hk (by decide) hstart
    | false =>
      rw [leftmost_of_start hstart (by decide) ha]
      exact ih a hs
  | binary op l r ih =>
    intro t h
    rw [Syntax.Shows] at h
    obtain ⟨n, rfl, hk, -, ⟨a, ha, hs⟩, -⟩ := h
    have hstart : start n = .ok (.field "left") := by
      rw [start, kind?_of_kind hk]
      cases isLogical op <;> rfl
    rw [leftmost_of_start hstart (by decide) ha]
    exact ih a hs
  | conditional c a b ih =>
    intro t h
    rw [Syntax.Shows] at h
    obtain ⟨n, rfl, hk, ⟨a, ha, hs⟩, -⟩ := h
    rw [leftmost_of_start (start_of_kind hk (by decide)) (by decide) ha]
    exact ih a hs
  | assign op e v ih =>
    intro t h
    rw [Syntax.Shows] at h
    obtain ⟨n, rfl, hk, -, -, ⟨a, ha, hs⟩, -⟩ := h
    rw [leftmost_of_start (start_of_kind hk (by decide)) (by decide) ha]
    exact ih a hs
  | sequence es ih =>
    intro t h
    rw [Syntax.Shows] at h
    obtain ⟨n, rfl, hk, ⟨c, hc, ts, rfl, hs⟩, hl⟩ := h
    cases es with
    | nil => simp at hl
    | cons e es =>
      obtain ⟨u, rest, rfl, hu, -⟩ := hs
      have hstart : start n = .ok (.first "expressions") := by rw [start, kind?_of_kind hk]
      rw [leftmost_of_first hstart (by decide) hc]
      exact ih e (by simp) u hu
  | member e s ih | index e p ih | call e es ih =>
    intro t h
    rw [Syntax.Shows] at h
    obtain ⟨n, rfl, hk, ⟨a, ha, hs⟩, -⟩ := h
    rw [leftmost_of_start (start_of_kind hk (by decide)) (by decide) ha]
    exact ih a hs

lemma written_expression {e : Expr} (hk : n.kind = .str Kind.expressionStatement.name)
    (h : Field "expression" (Syntax.Shows e) n) : Written (.expression e) n.toTree := by
  obtain ⟨t, ht, hs⟩ := h
  obtain ⟨m, kind, hmem, hleft, hkind⟩ := leftmost_of_shows e t hs
  have hplain : m.kind.among ["ObjectExpression", "FunctionExpression", "ClassExpression"] =
      .ok false ∧ m.is "ObjectPattern" = false := by
    simp only [Node.is, hkind]
    revert hmem kind
    simp only [startKinds, List.forall_mem_cons]
    exact ⟨fun _ => ⟨rfl, rfl⟩, fun _ => ⟨rfl, rfl⟩, fun _ => ⟨rfl, rfl⟩, fun _ => ⟨rfl, rfl⟩,
      fun _ => ⟨rfl, rfl⟩, fun _ => ⟨rfl, rfl⟩, by simp⟩
  refine spells_of_expand hk [.tree t, .text ";"] ?_ ?_
  · simp [expandKind, expressionStatement, attr_of_get? ht, hleft, hplain]
  · simpa [braced, layout] using
      Renders.append (written_of_shows e t hs) (.single ";")

lemma prints_braced {ts : List Tree} {ss : List Stmt}
    (h : Renders (ts.flatMap fun t => [Part.tree t, .text "\n"]) (layoutAll ss)) :
    Renders (Source.braced ts) (layout (.block ss)) := by
  have := Renders.text (s := opening ++ "\n") (h.append (.single closing))
  simpa [Source.braced, layout, opening, closing] using this

lemma prints_lines {ss : List Stmt} {ts : List Tree} (hs : List.Forall₂ Shows ss ts)
    (ih : ∀ s ∈ ss, ∀ t, Shows s t → Written s t) :
    Renders (ts.flatMap fun t => [Part.tree t, .text "\n"]) (layoutAll (bracedAll ss)) := by
  induction hs with
  | nil => exact .nil
  | @cons s t ss ts ht _ ihs =>
    have hq := ihs fun d hd => ih d (by simp [hd])
    simpa [bracedAll, layoutAll] using Renders.append (ih s (by simp) t ht) (.text (s := "\n") hq)

lemma written_block {ss : List Stmt} {ts : List Tree} (hk : n.kind = .str Kind.blockStatement.name)
    (hts : n.get? "body" = some (.list ts)) (hs : List.Forall₂ Shows ss ts)
    (ih : ∀ s ∈ ss, ∀ t, Shows s t → Written s t) : Written (.block ss) n.toTree := by
  refine spells_of_expand hk (Source.braced ts) ?_ (prints_braced (prints_lines hs ih))
  simp [expandKind, bracedBody, attr_of_get? hts, Tree.elements]

lemma Shows.kind {s : Stmt} (h : Shows s t) :
    ∃ k : Kind, t.kind = .ok (.str k.name) ∧
      (Tree.str k.name).isText "BlockStatement" = s.isBlock := by
  cases h with
  | @under n k _ _ h =>
    cases k with
    | forEach each => exact ⟨_, kind_toTree h.1, by cases each <;> rfl⟩
    | _ => exact ⟨_, kind_toTree h.1, rfl⟩
  | empty hk | expression hk | block hk | ifThen hk | ifElse hk | doWhile hk =>
    exact ⟨_, kind_toTree hk, rfl⟩

lemma isBlock_braced (s : Stmt) : s.braced.isBlock = s.isBlock := by
  cases s <;> rfl

lemma prints_consequent {s : Stmt} (hs : Shows s t) (h : Written s t) :
    SpellsAs (consequent t true) (layout (asBlock s.braced)) := by
  obtain ⟨kind, ht, hblock⟩ := hs.kind
  rw [asBlock, isBlock_braced]
  cases hb : s.isBlock with
  | true =>
    refine ⟨[.tree t], ?_, by rwa [if_pos rfl]⟩
    simp [consequent, ht, hblock, hb]
  | false =>
    have hline : Renders ([t].flatMap fun t => [Part.tree t, .text "\n"])
        (layoutAll [s.braced]) := by
      simpa [layoutAll] using Renders.append h (.single "\n")
    refine ⟨Source.braced [t], ?_, by simpa using prints_braced hline⟩
    simp [consequent, ht, hblock, hb]

lemma written_ifThen {c : Expr} {s : Stmt} (hk : n.kind = .str Kind.ifStatement.name)
    (hc : Field "test" (Syntax.Shows c) n) (ht : n.get? "consequent" = some t)
    (ha : n.get "alternate" = .null) (h : Written s t) : Written (.ifThen c s) n.toTree := by
  obtain ⟨u, hu, hc⟩ := hc
  refine spells_of_expand hk ([Part.text ("if" ++ " ("), .tree u, .text ") "] ++ [.tree t]) ?_ ?_
  · simp [expandKind, ifStatement, consequent, attr_of_get? hu, attr_of_get? ht, ha, Tree.isNull]
  · rw [braced, layout]
    exact (prints_tested "if" (written_of_shows c u hc)).append h

lemma written_ifElse {c : Expr} {s d : Stmt} {v : Tree} (hk : n.kind = .str Kind.ifStatement.name)
    (hc : Field "test" (Syntax.Shows c) n) (ht : n.get? "consequent" = some t) (hs : Shows s t)
    (hv : n.get? "alternate" = some v) (hd : Shows d v) (h : Written s t) (h' : Written d v) :
    Written (.ifElse c s d) n.toTree := by
  obtain ⟨u, hu, hc⟩ := hc
  obtain ⟨qs, hcons, hq⟩ := prints_consequent hs h
  have hnull : v.isNull = false := by
    cases hd <;> rfl
  refine spells_of_expand hk (([Part.text ("if" ++ " ("), .tree u, .text ") "] ++ qs) ++
    [Part.text " else ", .tree v]) ?_ ?_
  · simp [expandKind, ifStatement, attr_of_get? hu, attr_of_get? ht, get_of_get? hv, hnull, hcons]
  · have := ((prints_tested "if" (written_of_shows c u hc)).append hq).append
      (.text (s := " else ") h')
    simpa [braced, layout, elsePieces] using this

lemma written_under {k : Clause} {s : Stmt} (hk : k.Shows n) (ht : n.get? "body" = some t)
    (h : Written s t) : Written (.under k s) n.toTree := by
  obtain ⟨ps, he, hp⟩ := leads_of_shows hk ht
  exact .tree he (hp.append h)

lemma written_doWhile {s : Stmt} {c : Expr} (hk : n.kind = .str Kind.doWhileStatement.name)
    (ht : n.get? "body" = some t) (hc : Field "test" (Syntax.Shows c) n) (h : Written s t) :
    Written (.doWhile s c) n.toTree := by
  obtain ⟨u, hu, hc⟩ := hc
  refine spells_of_expand hk [.text "do ", .tree t, .text " while (", .tree u, .text ");"] ?_ ?_
  · simp [expandKind, doWhileStatement, attr_of_get? hu, attr_of_get? ht]
  · have := Renders.text (s := "do ") (Renders.append h (.text (s := " while (")
      (Renders.append (written_of_shows c u hc) (.single ");"))))
    simpa [braced, layout, tested, enclosed] using this

theorem written_of_shows (s : Stmt) : ∀ t, Shows s t → Written s t := by
  induction s using Stmt.induction with
  | empty =>
    intro t h
    cases h with
    | @empty n hk =>
      exact spells_of_expand hk [.text ";"] rfl (.single ";")
  | expression e =>
    intro t h
    cases h with
    | expression hk he => exact written_expression hk he
  | block ss ih =>
    intro t h
    cases h with
    | block hk hts hs => exact written_block hk hts hs ih
  | ifThen c s ih =>
    intro t h
    cases h with
    | ifThen hk hc ht hs ha => exact written_ifThen hk hc ht ha (ih _ hs)
  | ifElse c s d ihs ihd =>
    intro t h
    cases h with
    | ifElse hk hc ht hs hv hd => exact written_ifElse hk hc ht hs hv hd (ihs _ hs) (ihd _ hd)
  | under k s ih =>
    intro t h
    cases h with
    | under hk ht hs => exact written_under hk ht (ih _ hs)
  | doWhile s c ih =>
    intro t h
    cases h with
    | doWhile hk ht hs hc => exact written_doWhile hk ht hc (ih _ hs)

theorem print_of_shows {s : Stmt} (h : Shows s t) :
    print t = .ok (String.ofList (layout s.braced)) :=
  Spells.print (written_of_shows s t h)

end Stmt

end Overload.Syntax
