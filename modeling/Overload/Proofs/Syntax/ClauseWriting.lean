import Overload.Proofs.Syntax.Clause

/-!
How clauses are written: the trees that show them, the pieces that these print, and that the tokens
of the pieces read as the clause.
-/

namespace Overload.Syntax

open Source Token List Init

variable {t : Tree} {n : Node}

variable {ps rest : List Piece} {e : Expr} {name : String}

def enders : List Char := [')', ';', ' ']

lemma mayFollow_ender {t : Token} (ht : t.fits = true) {c : Char} (hc : c ∈ enders) :
    t.mayFollow c = true := by
  cases t with
  | word s =>
    have hall : ∀ c ∈ enders, isNamePart c = false := forall_of_all (by decide)
    simp [mayFollow, hall c hc]
  | number n =>
    have hall : ∀ c ∈ enders, (c.isDigit || c == '.' || c == '\\' || isNameStart c) = false :=
      forall_of_all (by decide)
    rw [mayFollow, hall c hc]
    rfl
  | text s => rfl
  | mark m =>
    have hall : ∀ m ∈ marks, ∀ c ∈ enders, c ∉ follow m := by
      have : marks.all (fun m => enders.all fun c => decide (c ∉ follow m)) = true := by
        decide +kernel
      exact fun m hm => forall_of_all (all_eq_true.1 this m hm)
    have hm : m ∈ marks := by simpa [fits] using ht
    simpa [mayFollow] using hall m hm c hc

lemma Spaced.append {qs : List Piece} (hp : Spaced ps) (hq : Spaced qs) (hg : GoesOn enders qs) :
    Spaced (ps ++ qs) := by
  induction ps with
  | nil => exact hq
  | cons p ps ih =>
    cases p with
    | gap => exact ih hp
    | token t =>
      obtain ⟨ht, ha, hp⟩ := hp
      refine ⟨ht, fun c hc => ?_, ih hp⟩
      replace hc : c ∈ (chars (ps ++ qs)).head? := hc
      rw [chars_append, head?_append] at hc
      cases hh : (chars ps).head? with
      | none => exact mayFollow_ender ht (hg c (by simpa [hh] using hc))
      | some d => exact ha c (by simpa [hh] using hc)

def Lexes (cs : List Char) (ts : List Token) : Prop :=
  ∀ ds, lex (cs ++ ds) = (lex ds).map (ts ++ ·)

namespace Lexes

variable {cs ds : List Char} {ts us : List Token}

lemma append (h : Lexes cs ts) (h' : Lexes ds us) : Lexes (cs ++ ds) (ts ++ us) := by
  intro es
  rw [append_assoc, h, h', Option.map_map]
  congr 1
  funext vs
  simp

lemma blank {c : Char} (hc : Text.isBlank c = true) : Lexes [c] [] := by
  intro ds
  rw [singleton_append, lex, hc]
  simp

lemma lex_eq (h : Lexes cs ts) : lex cs = some ts := by
  have := h []
  simpa [lex] using this

end Lexes

def Piece.isFinal : Piece → Prop
  | .gap => True
  | .token t => t.chars ≠ [] ∧ ∀ c, t.mayFollow c = true

lemma lexes_of_spaced {p : Piece} (h : Spaced ps) (hl : ps.getLast? = some p) (hp : p.isFinal) :
    Lexes (chars ps) (tokens ps) := by
  obtain ⟨ps, rfl⟩ := getLast?_eq_some_iff.1 hl
  clear hl
  have hblank : Text.isBlank ' ' = true := by decide
  induction ps with
  | nil =>
    cases p with
    | gap => exact .blank hblank
    | token t =>
      intro ds
      have hapart : t.Apart ds := fun c _ => hp.2 c
      simpa using lex_token h.1 hapart
  | cons q ps ih =>
    cases q with
    | gap => exact (Lexes.blank hblank).append (ih h)
    | token t =>
      obtain ⟨ht, ha, hs⟩ := h
      intro ds
      have hne : chars (ps ++ [p]) ≠ [] := by
        cases p with
        | gap => simp
        | token u => simp [hp.1]
      have hapart : t.Apart (chars (ps ++ [p]) ++ ds) := by
        intro c hc
        rw [head?_append_of_ne_nil _ hne] at hc
        exact ha c hc
      rw [cons_append, chars_cons, Piece.chars, append_assoc, lex_token ht hapart, ih hs,
        Option.map_map]
      rfl

def SlotField {α : Type} (name : String) (P : α → Tree → Prop) : Option α → Node → Prop
  | none => fun n => n.get name = .null
  | some a => Field name (P a)

def Expr.startsLet : Expr → Bool
  | .ident s => s == "let"
  | .member e _ | .index e _ | .call e _ => e.startsLet
  | _ => false

namespace Init

def isDeclaring : Init → Bool
  | .expression _ => true
  | .declaration _ ds => !ds.isEmpty

def isLeft (each : Each) : Init → Bool
  | .expression e => e.isTarget && (each == .names || !e.startsLet)
  | .declaration _ ds =>
    match ds with
    | [(_, none)] => true
    | _ => false

lemma exists_of_isLeft {each : Each} {kind : String} {ds : List (String × Option Expr)}
    (h : (declaration kind ds).isLeft each = true) : ∃ s, ds = [(s, none)] := by
  rcases ds with _ | ⟨⟨s, _ | v⟩, _ | ⟨d, ds⟩⟩
  · simp [isLeft] at h
  · exact ⟨s, rfl⟩
  · simp [isLeft] at h
  · simp [isLeft] at h
  · simp [isLeft] at h

end Init

namespace Each

def kind : Each → Kind
  | .names => .forInStatement
  | .values | .awaited => .forOfStatement

end Each

namespace Clause

def Shows : Clause → Node → Prop
  | .whileTest c => fun n =>
    n.kind = .str Kind.whileStatement.name ∧ Field "test" (Syntax.Shows c) n
  | .forSteps i c u => fun n =>
    n.kind = .str Kind.forStatement.name ∧ SlotField "init" Init.Shows i n ∧
      i.all isDeclaring = true ∧ SlotField "test" Syntax.Shows c n ∧
      SlotField "update" Syntax.Shows u n
  | .forEach each l r => fun n =>
    n.kind = .str each.kind.name ∧ Flag "await" each.isAwait n ∧ Field "left" l.Shows n ∧
      l.isLeft each = true ∧ Field "right" (Syntax.Shows r) n
  | .withObject e => fun n =>
    n.kind = .str Kind.withStatement.name ∧ Field "object" (Syntax.Shows e) n
  | .label s => fun n =>
    n.kind = .str Kind.labeledStatement.name ∧ isIdentifier s = true ∧
      Field "label" (OfKind .identifier (Field "name" (· = .str s))) n

def slot {α : Type} (f : α → List Piece) : Option α → List Piece
  | none => []
  | some a => f a

def tested (word : String) (e : Expr) : List Piece :=
  .token (.word word) :: .gap :: enclosed (Syntax.pieces e)

def awaiting (each : Each) : List Piece :=
  if each.isAwait then [.token (.word "await"), .gap] else []

def pieces : Clause → List Piece
  | .whileTest c => tested "while" c ++ [.gap]
  | .forSteps i c u => .token (.word "for") :: .gap :: mark "(" :: slot Init.pieces i ++
    mark ";" :: .gap :: slot Syntax.pieces c ++ mark ";" :: .gap :: slot Syntax.pieces u ++
    [mark ")", .gap]
  | .forEach each l r => .token (.word "for") :: .gap :: awaiting each ++ mark "(" :: l.pieces ++
    .gap :: .token (.word each.word) :: .gap :: atLeast 3 r (Syntax.pieces r) ++ [mark ")", .gap]
  | .withObject e => tested "with" e ++ [.gap]
  | .label s => [.token (.word s), mark ":", .gap]

lemma spaced_expr (h : Syntax.Shows e t) : Spaced (Syntax.pieces e) :=
  Followed.spaced (spacing_pieces e t h)

lemma spaced_parenthesis (hp : Spaced ps) (hr : Spaced rest) : Spaced (ps ++ mark ")" :: rest) := by
  apply hp.append
  · exact ⟨by decide, fun c _ => rfl, hr⟩
  · exact goesOn_token rest (by decide)

lemma spaced_semicolon (hp : Spaced ps) (hr : Spaced rest) : Spaced (ps ++ mark ";" :: rest) := by
  apply hp.append
  · exact ⟨by decide, fun c _ => rfl, hr⟩
  · exact goesOn_token rest (by decide)

lemma spaced_open (hp : Spaced ps) : Spaced (mark "(" :: ps) :=
  ⟨by decide, fun c _ => rfl, hp⟩

lemma spaced_tested {word : String} (hw : isName word = true) (h : Syntax.Shows e t)
    (hr : Spaced rest) : Spaced (tested word e ++ rest) := by
  have := spaced_open (spaced_parenthesis (spaced_expr h) hr)
  simpa [tested, enclosed] using spaced_token_gap (t := .word word) hw this

lemma spaced_slot {α : Type} {P : α → Tree → Prop} {f : α → List Piece} {a : Option α}
    (hf : ∀ a t, P a t → Spaced (f a)) (h : SlotField name P a n) : Spaced (slot f a) := by
  cases a with
  | none => trivial
  | some a =>
    obtain ⟨t, -, ht⟩ := h
    exact hf a t ht

lemma spaced_awaiting (each : Each) (hr : Spaced rest) : Spaced (awaiting each ++ rest) := by
  rw [awaiting]
  split
  · exact spaced_token_gap (t := .word "await") (by decide) hr
  · exact hr

theorem spaced_pieces {k : Clause} (h : k.Shows n) : Spaced k.pieces := by
  cases k with
  | whileTest c =>
    obtain ⟨-, t, -, hc⟩ := h
    exact spaced_tested (by decide) hc trivial
  | forSteps i c u =>
    obtain ⟨-, hi, -, hc, hu⟩ := h
    have hupdate : Spaced (slot Syntax.pieces u ++ mark ")" :: [.gap]) :=
      spaced_parenthesis (spaced_slot (fun _ _ h => spaced_expr h) hu) trivial
    have htest : Spaced (slot Syntax.pieces c ++ mark ";" :: .gap :: _) :=
      spaced_semicolon (spaced_slot (fun _ _ h => spaced_expr h) hc) hupdate
    have hinit : Spaced (slot Init.pieces i ++ mark ";" :: .gap :: _) :=
      spaced_semicolon (spaced_slot (fun _ _ h => Init.spaced_pieces h) hi) htest
    have := spaced_token_gap (t := .word "for") (by decide) (spaced_open hinit)
    simpa [pieces] using this
  | forEach each l r =>
    obtain ⟨-, -, ⟨t, -, hl⟩, -, u, -, hr⟩ := h
    have hclose : Spaced [mark ")", .gap] := ⟨by decide, fun c _ => rfl, trivial⟩
    have hright : Spaced (atLeast 3 r (Syntax.pieces r) ++ [mark ")", .gap]) :=
      (spacing_pieces r u hr).atLeast 3 _ hclose (goesOn_token _ (by decide))
    have hword : (word each.word).fits = true := by cases each <;> decide
    have hleft : Spaced (l.pieces ++ .gap :: .token (.word each.word) :: .gap :: _) :=
      (Init.spaced_pieces hl).append (spaced_operator hword hright) (goesOn_gap _ (by decide))
    have := spaced_token_gap (t := .word "for") (by decide)
      (spaced_awaiting each (spaced_open hleft))
    simpa [pieces] using this
  | withObject e =>
    obtain ⟨-, t, -, he⟩ := h
    exact spaced_tested (by decide) he trivial
  | label s =>
    obtain ⟨-, hs, -⟩ := h
    have hname : isName s = true := ((Bool.and_eq_true _ _).mp hs).1
    have hcolon : Spaced [mark ":", .gap] := ⟨by decide, fun c _ => rfl, trivial⟩
    have hfollow : ∀ c ∈ [':'], (word s).mayFollow c = true := by
      have : isNamePart ':' = false := by decide
      simp [mayFollow, this]
    exact spaced_token hname hfollow (goesOn_token _ (by decide)) hcolon

lemma tokens_tested (word : String) (e : Expr) : tokens (tested word e) =
    .word word :: .mark "(" :: tokens (Syntax.pieces e) ++ [.mark ")"] := by
  simp [tested, enclosed]

lemma reads_expr (h : Syntax.Shows e t) : Syntax.Reads .expression (tokens (Syntax.pieces e)) e :=
  (Syntax.reads_pieces e t h).climb (climbs_of_rank (one_le_rank _) (level_ne_shortCircuit e) (by simp))

lemma reads_declarator {d : String × Option Expr} (h : ShowsDeclarator d t) :
    ReadsDeclarator (tokens (declarator d)) d := by
  obtain ⟨s, v⟩ := d
  obtain ⟨n, -, -, ⟨c, -, hid⟩, hinit⟩ := h
  rw [Syntax.Shows] at hid
  obtain ⟨-, -, -, -, hs⟩ := hid
  cases v with
  | none => exact .bare hs
  | some e =>
    obtain ⟨u, -, hu⟩ := hinit
    have : Syntax.Reads .assignment (tokens (atLeast 3 e (Syntax.pieces e))) e :=
      reads_operand (Syntax.reads_pieces e u hu) (by decide)
    simpa [declarator, value] using ReadsDeclarator.valued hs this

lemma reads_init {i : Init} (h : i.Shows t) (hd : i.isDeclaring = true) :
    Init.Reads (tokens i.pieces) i := by
  cases i with
  | expression e => exact .expression (reads_expr h)
  | declaration kind ds =>
    obtain ⟨n, -, -, -, hkind, ⟨_, -, ts, rfl, hs⟩⟩ := h
    have hitems : ∀ a ∈ ds.map fun d => (tokens (declarator d), d),
        ReadsDeclarator a.1 a.2 := by
      rw [forall_mem_map]
      intro d hd
      obtain ⟨t, ht⟩ := exists_declarator hs d hd
      exact reads_declarator ht
    have hne : (ds.map fun d => (tokens (declarator d), d)) ≠ [] := by
      simpa [isDeclaring] using hd
    have := Reads.declaration hkind hne hitems
    simpa [Init.pieces, tokens_separated, Function.comp_def] using this

lemma reads_slot {α : Type} {P : α → Tree → Prop} {R : List Token → α → Prop} {f : α → List Piece}
    {a : Option α} (h : SlotField name P a n) (hf : ∀ b ∈ a, ∀ t, P b t → R (tokens (f b)) b) :
    Slot R (tokens (slot f a)) a := by
  cases a with
  | none => exact rfl
  | some a =>
    obtain ⟨t, -, ht⟩ := h
    exact hf a rfl t ht

lemma head?_of_startsLet (e : Expr) : ∀ t, Syntax.Shows e t → e.startsLet = false →
    20 ≤ e.level.rank → (tokens (Syntax.pieces e)).head? ≠ some (.word "let") := by
  have hobject {e : Expr} (ps : List Piece)
      (ih : 20 ≤ e.level.rank → (tokens (Syntax.pieces e)).head? ≠ some (.word "let"))
      (hne : tokens (Syntax.pieces e) ≠ []) :
      (tokens (object e (Syntax.pieces e) ++ ps)).head? ≠ some (.word "let") := by
    rw [object, atLeast]
    split
    · simp [enclosed]
    split
    · simp [enclosed]
    · rename_i hr
      rw [tokens_append, head?_append_of_ne_nil _ hne]
      exact ih (by omega)
  have hne {e : Expr} {t : Tree} (h : Syntax.Shows e t) : tokens (Syntax.pieces e) ≠ [] :=
    (Syntax.reads_pieces e t h).ne_nil
  induction e using Expr.induction with
  | ident s =>
    intro t _ hs _
    simpa [Syntax.pieces, Expr.startsLet] using hs
  | number | text => simp [Syntax.pieces]
  | bool b => cases b <;> simp [Syntax.pieces]
  | null => simp [Syntax.pieces]
  | member e s ih =>
    intro t h hs _
    rw [Syntax.Shows] at h
    obtain ⟨n, -, -, ⟨a, -, ha⟩, -⟩ := h
    exact hobject _ (ih a ha hs) (hne ha)
  | index e p ih | call e es ih =>
    intro t h hs _
    rw [Syntax.Shows] at h
    obtain ⟨n, -, -, ⟨a, -, ha⟩, -⟩ := h
    rw [Syntax.pieces, append_assoc]
    exact hobject _ (ih a ha hs) (hne ha)
  | binary op l r =>
    intro t _ _ hr
    exact absurd (Nat.le_trans hr (rank_levelOf_le op)) (by decide)
  | update op isBefore e =>
    intro t _ _ hr
    cases isBefore <;> simp [Expr.level, Level.rank] at hr
  | _ =>
    intro t _ _ hr
    simp [Expr.level, Level.rank] at hr

lemma reads_left {each : Each} {i : Init} (h : i.Shows t) (hl : i.isLeft each = true) :
    ReadsLeft each.word (tokens i.pieces) i := by
  cases i with
  | expression e =>
    obtain ⟨htarget, hlet⟩ := (Bool.and_eq_true _ _).mp hl
    have hlevel : e.level = .primary ∨ e.level = .leftHandSide := by
      cases e <;> simp [Expr.isTarget] at htarget <;> simp [Expr.level]
    have hr := Syntax.reads_pieces e t h
    have hclimb : climbs 20 e.level .leftHandSide = true := by
      rcases hlevel with hl | hl <;> rw [hl] <;> decide
    have hrank : 20 ≤ e.level.rank := by
      rcases hlevel with hl | hl <;> rw [hl] <;> decide
    refine .target (hr.climb hclimb) htarget fun hof => ?_
    have hstart : e.startsLet = false := by
      cases each with
      | names => simp [Each.word] at hof
      | values | awaited => simpa using hlet
    exact head?_of_startsLet e t h hstart hrank
  | declaration kind ds =>
    obtain ⟨n, -, -, -, hkind, ⟨_, -, ts, rfl, hs⟩⟩ := h
    obtain ⟨s, rfl⟩ := exists_of_isLeft hl
    obtain ⟨t, ht⟩ := exists_declarator hs (s, none) (by simp)
    cases reads_declarator ht with
    | bare hname =>
      simpa [Init.pieces, separated, declarator, value, intercalate] using
        ReadsLeft.declaration hkind hname

theorem reads_pieces {k : Clause} (h : k.Shows n) : Reads (tokens k.pieces) k := by
  cases k with
  | whileTest c =>
    obtain ⟨-, t, -, hc⟩ := h
    simpa [pieces, tokens_tested] using Reads.whileTest (reads_expr hc)
  | forSteps i c u =>
    obtain ⟨-, hi, hd, hc, hu⟩ := h
    have hinit : Slot Init.Reads (tokens (slot Init.pieces i)) i :=
      reads_slot hi fun b hb t ht => reads_init ht (by simpa [Option.mem_def.1 hb] using hd)
    have := Reads.forSteps hinit (reads_slot hc fun _ _ _ h => reads_expr h)
      (reads_slot hu fun _ _ _ h => reads_expr h)
    simpa [pieces] using this
  | forEach each l r =>
    obtain ⟨-, -, ⟨t, -, hl⟩, hleft, u, -, hr⟩ := h
    have hright : Syntax.Reads each.level (tokens (atLeast 3 r (Syntax.pieces r))) r := by
      have hr : Syntax.Reads .assignment (tokens (atLeast 3 r (Syntax.pieces r))) r :=
        reads_operand (Syntax.reads_pieces r u hr) (by decide)
      cases each with
      | names => exact .unit (by decide) hr
      | values | awaited => exact hr
    have hawait : tokens (awaiting each) = if each.isAwait then [.word "await"] else [] := by
      cases each <;> rfl
    simpa [pieces, hawait] using Reads.forEach (reads_left hl hleft) hright
  | withObject e =>
    obtain ⟨-, t, -, he⟩ := h
    simpa [pieces, tokens_tested] using Reads.withObject (reads_expr he)
  | label s => exact .label h.2.1

lemma prints_tested (word : String) (h : Spells t (chars (Syntax.pieces e))) :
    Renders [.text (word ++ " ("), .tree t, .text ") "] (chars (tested word e ++ [.gap])) := by
  have := Renders.text (s := word ++ " (") (Renders.append h (.single ") "))
  simpa [tested, enclosed] using this

lemma prints_optional {a : Option Expr} (h : SlotField name Syntax.Shows a n) :
    Renders (Source.optional (n.get name)) (chars (slot Syntax.pieces a)) := by
  cases a with
  | none =>
    rw [show n.get name = .null from h]
    exact .nil
  | some e =>
    obtain ⟨t, ht, hs⟩ := h
    rw [get_of_get? ht, Source.optional, isNull_of_shows hs]
    exact written_of_shows e t hs

lemma prints_init {a : Option Init} (h : SlotField name Init.Shows a n) :
    SpellsAs (forHead (n.get name)) (chars (slot Init.pieces a)) := by
  cases a with
  | none =>
    refine ⟨[], ?_, .nil⟩
    rw [show n.get name = .null from h]
    rfl
  | some i =>
    obtain ⟨t, ht, hs⟩ := h
    rw [get_of_get? ht]
    exact prints_forHead hs

def Leads (k : Clause) (n : Node) (t : Tree) : Prop :=
  ∃ ps, expand n = .ok (ps ++ [.tree t]) ∧ Renders ps (chars k.pieces)

section Leads

lemma leads_whileTest {c : Expr} (h : (whileTest c).Shows n) (ht : n.get? "body" = some t) :
    Leads (.whileTest c) n t := by
  obtain ⟨hk, u, hu, hc⟩ := h
  refine ⟨_, ?_, prints_tested "while" (written_of_shows c u hc)⟩
  rw [expand_of_kind hk]
  simp [expandKind, whileStatement, attr_of_get? hu, attr_of_get? ht]

lemma leads_withObject (h : (withObject e).Shows n) (ht : n.get? "body" = some t) :
    Leads (.withObject e) n t := by
  obtain ⟨hk, u, hu, he⟩ := h
  refine ⟨_, ?_, prints_tested "with" (written_of_shows e u he)⟩
  rw [expand_of_kind hk]
  simp [expandKind, withStatement, attr_of_get? hu, attr_of_get? ht]

lemma leads_label {s : String} (h : (label s).Shows n) (ht : n.get? "body" = some t) :
    Leads (.label s) n t := by
  obtain ⟨hk, -, u, hu, hs⟩ := h
  refine ⟨[.tree u, .text ": "], ?_, ?_⟩
  · rw [expand_of_kind hk]
    simp [expandKind, labeled, attr_of_get? hu, attr_of_get? ht]
  · have := Renders.append (spells_identifier hs) (.single ": ")
    simpa [pieces] using this

lemma leads_forSteps {i : Option Init} {c u : Option Expr} (h : (forSteps i c u).Shows n)
    (ht : n.get? "body" = some t) : Leads (.forSteps i c u) n t := by
  obtain ⟨hk, hi, -, hc, hu⟩ := h
  obtain ⟨ps, hhead, hp⟩ := prints_init hi
  refine ⟨Part.text "for (" :: (ps ++ Part.text "; " :: (Source.optional (n.get "test") ++
    Part.text "; " :: (Source.optional (n.get "update") ++ [Part.text ") "]))), ?_, ?_⟩
  · rw [expand_of_kind hk]
    simp [expandKind, forStatement, hhead, attr_of_get? ht]
  · have := Renders.text (s := "for (") (hp.append (.text (s := "; ")
      ((prints_optional hc).append (.text (s := "; ")
        ((prints_optional hu).append (.single ") "))))))
    simpa [pieces] using this

lemma expand_each {each : Each} (hk : n.kind = .str each.kind.name) :
    expand n = Source.forEach (" " ++ each.word ++ " ") n := by
  rw [expand_of_kind hk]
  cases each <;> rfl

lemma leads_forEach {each : Each} {l : Init} {r : Expr} (h : (forEach each l r).Shows n)
    (ht : n.get? "body" = some t) : Leads (.forEach each l r) n t := by
  obtain ⟨hk, hawait, ⟨u, hu, hl⟩, -, v, hv, hr⟩ := h
  rw [Flag] at hawait
  obtain ⟨ps, hhead, hp⟩ := prints_forHead hl
  obtain ⟨qs, ho, hq⟩ := (written_of_shows r v hr).operand hr 3
  refine ⟨Part.text "for " :: (textIf each.isAwait "await " ++ Part.text "(" ::
    (ps ++ Part.text (" " ++ each.word ++ " ") :: (qs ++ [Part.text ") "]))), ?_, ?_⟩
  · rw [expand_each hk]
    simp [Source.forEach, hawait, hhead, ho, attr_of_get? hu, attr_of_get? hv, attr_of_get? ht,
      assignmentLevel]
  · have := Renders.text (s := "for ") ((Renders.textIf each.isAwait "await ").append
      (.text (s := "(") (hp.append (.text (s := " " ++ each.word ++ " ")
        (hq.append (.single ") "))))))
    have hchars : chars (awaiting each) = if each.isAwait then "await ".toList else [] := by
      cases each <;> rfl
    have hpieces : chars (forEach each l r).pieces = "for ".toList ++
        ((if each.isAwait then "await ".toList else []) ++ ("(".toList ++ (chars l.pieces ++
          ((" " ++ each.word ++ " ").toList ++
            (chars (atLeast 3 r (Syntax.pieces r)) ++ ") ".toList))))) := by
      rw [← hchars]
      simp [pieces]
    rw [hpieces]
    exact this

theorem leads_of_shows {k : Clause} (h : k.Shows n) (ht : n.get? "body" = some t) :
    Leads k n t := by
  cases k with
  | whileTest c => exact leads_whileTest h ht
  | forSteps i c u => exact leads_forSteps h ht
  | forEach each l r => exact leads_forEach h ht
  | withObject e => exact leads_withObject h ht
  | label s => exact leads_label h ht

end Leads

end Clause

end Overload.Syntax
