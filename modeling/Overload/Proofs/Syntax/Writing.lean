import Overload.Proofs.Syntax.Nodes

/-! How an expression is written, as tokens and gaps. -/

namespace Overload.Syntax

open Source Overload.Tree

variable {e : Expr} {t : Tree}

def Expr.level : Expr → Level
  | .ident _ | .number _ | .text _ | .bool _ | .null => .primary
  | .unary _ _ | .await _ => .unary
  | .update _ isBefore _ => if isBefore then .unary else .update
  | .binary op _ _ => levelOf op
  | .conditional _ _ _ => .conditional
  | .assign _ _ _ | .pause | .yield _ | .delegate _ => .assignment
  | .sequence _ => .expression
  | .member _ _ | .index _ _ | .call _ _ => .leftHandSide

def meets (op : PrefixOp) : Expr → Bool
  | .unary op' _ => (op == .pos || op == .neg) && op' == op
  | .update op' true _ => op == .pos && op' == .increment || op == .neg && op' == .decrement
  | _ => false

def mixes (op : BinaryOp) : Expr → Bool
  | .binary op' _ _ => isLogical op && isLogical op' && (op == .nullish) != (op' == .nullish)
  | _ => false

def leftLeast (op : BinaryOp) (e : Expr) : Nat :=
  if mixes op e then 21 else if op = .pow then 18 else (levelOf op).rank

def rightLeast (op : BinaryOp) (e : Expr) : Nat :=
  if mixes op e then 21 else if op = .pow then 16 else (levelOf op).rank + 1

def mark (s : String) : Piece := .token (.mark s)

@[simp] lemma chars_mark (s : String) : (mark s).chars = s.toList := rfl

@[simp] lemma tokens_mark (s : String) (ps : List Piece) :
    tokens (mark s :: ps) = .mark s :: tokens ps := rfl

@[simp] lemma chars_symbol (s : String) : (symbol s).chars = s.toList := by
  rw [symbol]
  split <;> rfl

def enclosed (ps : List Piece) : List Piece := mark "(" :: ps ++ [mark ")"]

def atLeast (least : Nat) (e : Expr) (ps : List Piece) : List Piece :=
  if e.level.rank < least then enclosed ps else ps

def object (e : Expr) (ps : List Piece) : List Piece :=
  if e.isNumber then enclosed ps else atLeast 20 e ps

def separated (items : List (List Piece)) : List Piece := [mark ",", .gap].intercalate items

mutual

def pieces : Expr → List Piece
  | .ident s => [.token (.word s)]
  | .number n => [.token (.number n)]
  | .text s => [.token (.text s)]
  | .bool b => [.token (.word (if b then "true" else "false"))]
  | .null => [.token (.word "null")]
  | .unary op e => .token (symbol op.token) ::
    (if op.isWord || meets op e then [.gap] else []) ++ atLeast 17 e (pieces e)
  | .update op isBefore e =>
    if isBefore then .token (symbol op.token) :: atLeast 17 e (pieces e)
    else atLeast 20 e (pieces e) ++ [.token (symbol op.token)]
  | .binary op l r => atLeast (leftLeast op l) l (pieces l) ++ .gap :: .token (symbol op.token) ::
    .gap :: atLeast (rightLeast op r) r (pieces r)
  | .conditional c a b => atLeast 5 c (pieces c) ++ .gap :: mark "?" :: .gap ::
    atLeast 3 a (pieces a) ++ .gap :: mark ":" :: .gap :: atLeast 3 b (pieces b)
  | .assign op e v => pieces e ++ .gap :: .token (symbol (assignToken op)) :: .gap ::
    atLeast 3 v (pieces v)
  | .sequence es => separated (listed es)
  | .await e => .token (.word "await") :: .gap :: atLeast 17 e (pieces e)
  | .pause => [.token (.word "yield")]
  | .yield e => .token (.word "yield") :: .gap :: atLeast 3 e (pieces e)
  | .delegate e => .token (.word "yield") :: mark "*" :: .gap :: atLeast 3 e (pieces e)
  | .member e s => object e (pieces e) ++ [mark ".", .token (.word s)]
  | .index e p => object e (pieces e) ++ mark "[" :: pieces p ++ [mark "]"]
  | .call e es => object e (pieces e) ++ mark "(" :: separated (listed es) ++ [mark ")"]

def listed : List Expr → List (List Piece)
  | [] => []
  | e :: es => atLeast 3 e (pieces e) :: listed es

end

lemma precedence_of_shows (h : Shows e t) : precedence t = .ok e.level.rank := by
  cases e with
  | update op isBefore e =>
    rw [Shows] at h
    obtain ⟨n, rfl, hk, -, ⟨c, hc, hb⟩, -⟩ := h
    cases isBefore <;>
      simp [precedence, asNode_toTree, kind?_of_kind hk, attr_of_get? hc, hb, Expr.level,
        Level.rank, unaryLevel, postfixLevel]
  | binary op l r =>
    rw [Shows] at h
    obtain ⟨n, rfl, hk, ⟨c, hc, rfl⟩, -⟩ := h
    have hkind := kind?_of_kind hk
    split at hkind <;>
      simp [precedence, asNode_toTree, hkind, attr_of_get? hc, operatorLevel_token,
        Expr.level]
  | _ =>
    obtain ⟨n, rfl, hk⟩ := h.exists_node
    simp only [precedence, asNode_toTree, kind?_of_kind hk, ok_bind, Expr.kind]
    rfl

def Written (e : Expr) (t : Tree) : Prop := Spells t (chars (pieces e))

lemma chars_enclosed (ps : List Piece) : chars (enclosed ps) = inParens (chars ps) := by
  simp [enclosed, inParens]

lemma Written.operand {e : Expr} {t : Tree} (hs : Shows e t) (h : Written e t) (least : Nat) :
    SpellsAs (Source.operand t least) (chars (atLeast least e (pieces e))) := by
  rw [atLeast, apply_ite chars, chars_enclosed]
  exact Spells.operand h (precedence_of_shows hs) least

lemma isNumberLiteral_of_shows (h : Shows e t) : isNumberLiteral t = .ok e.isNumber := by
  cases e with
  | number k | text k | bool k | null =>
    rw [Shows] at h
    obtain ⟨n, rfl, hk, -, -, hv⟩ := h
    have hg : n.toTree.get "value" = .ok (n.get "value") := rfl
    simp [isNumberLiteral, kind_toTree hk, isText, Kind.name, hg, hv, Expr.isNumber]
  | binary op l r =>
    obtain ⟨n, rfl, hk⟩ := h.exists_node
    rw [Expr.kind] at hk
    split at hk <;>
      simp [isNumberLiteral, kind_toTree hk, isText, Kind.name, Expr.isNumber]
  | _ =>
    obtain ⟨n, rfl, hk⟩ := h.exists_node
    simp [isNumberLiteral, kind_toTree hk, isText, Kind.name, Expr.isNumber, Expr.kind]

lemma Written.objectOperand (hs : Shows e t) (h : Written e t) :
    SpellsAs (Source.objectOperand t) (chars (object e (pieces e))) := by
  rw [object, apply_ite chars, chars_enclosed]
  exact Spells.objectOperand h (isNumberLiteral_of_shows hs) (h.operand hs 20)

lemma signsMeet_of_shows {op : PrefixOp} (h : Shows e t) :
    signsMeet op.token t = .ok (meets op e) := by
  cases e with
  | unary op' e =>
    rw [Shows] at h
    obtain ⟨n, rfl, hk, ⟨c, hc, rfl⟩, -⟩ := h
    simp only [signsMeet, kind_toTree hk, attr_toTree, attr_of_get? hc, ok_bind]
    cases op <;> cases op' <;> rfl
  | update op' isBefore e =>
    rw [Shows] at h
    obtain ⟨n, rfl, hk, ⟨c, hc, rfl⟩, ⟨b, hb, rfl⟩, -⟩ := h
    simp only [signsMeet, kind_toTree hk, attr_toTree, attr_of_get? hc, attr_of_get? hb,
      ok_bind]
    cases op <;> cases op' <;> cases b.truthy <;> rfl
  | binary op' l r =>
    obtain ⟨n, rfl, hk⟩ := h.exists_node
    refine signsMeet_of_kind _ hk ?_
    rw [Expr.kind]
    split <;> decide
  | _ =>
    obtain ⟨n, rfl, hk⟩ := h.exists_node
    exact signsMeet_of_kind _ hk (by simp [Expr.kind])

lemma mixesNullish_of_shows {op : BinaryOp} (h : Shows e t) (hop : isLogical op = true) :
    mixesNullish op.token t = .ok (mixes op e) := by
  cases e with
  | binary op' l r =>
    rw [Shows] at h
    obtain ⟨n, rfl, hk, hc, -⟩ := h
    exact mixesNullish_of_operator hop hk hc
  | _ =>
    obtain ⟨n, rfl, hk⟩ := h.exists_node
    simp [mixesNullish, kind_toTree hk, isText, Kind.name, mixes, Expr.kind]

lemma leastLevel_of_shows {op : BinaryOp} (h : Shows e t) (level : Nat) :
    leastLevel op.token level t = .ok (if mixes op e then 21 else level) := by
  refine leastLevel_of_mixes (mixesNullish_of_shows h) (fun hop => ?_) level
  cases e <;> simp [mixes, hop]

lemma isNull_of_shows (h : Shows e t) : t.isNull = false := by
  obtain ⟨n, rfl, -⟩ := h.exists_node
  rfl

lemma isNull_of_showsAll {es : List Expr} {ts : List Tree} (h : ShowsAll es ts) :
    ∀ t ∈ ts, t.isNull = false := by
  induction es generalizing ts with
  | nil =>
    obtain rfl := h
    simp
  | cons e es ih =>
    obtain ⟨t, rest, rfl, ht, hrest⟩ := h
    simpa using ⟨isNull_of_shows ht, ih hrest⟩

lemma separated_cons (ps qs : List Piece) (rest : List (List Piece)) :
    separated (ps :: qs :: rest) = ps ++ mark "," :: .gap :: separated (qs :: rest) := by
  simp [separated, List.intercalate]

lemma chars_separated (items : List (List Piece)) :
    chars (separated items) = ", ".toList.intercalate (items.map chars) := by
  induction items with
  | nil => rfl
  | cons ps items ih =>
    cases items with
    | nil => simp [separated, List.intercalate]
    | cons qs items =>
      rw [separated_cons, chars_append, chars_cons, chars_cons, ih]
      simp [List.intercalate]

lemma tokens_separated (items : List (List Piece)) :
    tokens (separated items) = commas (items.map tokens) := by
  induction items with
  | nil => rfl
  | cons ps items ih =>
    cases items with
    | nil => simp [separated, commas, List.intercalate]
    | cons qs items =>
      rw [separated_cons, tokens_append, mark, tokens_token, tokens_gap, ih]
      simp [commas, List.intercalate]

lemma Written.item (hs : Shows e t) (h : Written e t) :
    PrintsItem t (chars (atLeast 3 e (pieces e))) := by
  obtain ⟨ps, ho, hp⟩ := h.operand hs 3
  refine ⟨ps, ?_, hp⟩
  rw [listItem, isNull_of_shows hs]
  exact ho

lemma printsItem_of_showsAll {es : List Expr} {ts : List Tree} (hs : ShowsAll es ts)
    (hw : ∀ e ∈ es, ∀ t, Shows e t → Written e t) :
    List.Forall₂ PrintsItem ts ((listed es).map chars) := by
  induction es generalizing ts with
  | nil =>
    obtain rfl := hs
    exact .nil
  | cons e es ih =>
    obtain ⟨t, rest, rfl, ht, hrest⟩ := hs
    exact .cons ((hw e (by simp) t ht).item ht) (ih hrest fun d hd => hw d (by simp [hd]))

lemma one_le_rank (l : Level) : 1 ≤ l.rank := by
  cases l <;> decide

lemma expand_yield {n : Node} {a : Tree} {b : Bool} {ps : List Source.Part}
    (ha : n.get? "argument" = some a) (hs : Shows e a) (hd : Flag "delegate" b n)
    (ho : operand a 3 = .ok ps) : expandKind n .yieldExpression =
      .ok ([.text (if b then "yield*" else "yield"), .text " "] ++ ps) := by
  rw [Flag] at hd
  simp [expandKind, Source.yield, get_of_get? ha, hd, isNull_of_shows hs,
    assignmentLevel, ho]

theorem written_of_shows (e : Expr) : ∀ t, Shows e t → Written e t := by
  induction e using Expr.induction with
  | ident s =>
    intro t h
    rw [Shows] at h
    obtain ⟨n, rfl, hk, hs, -⟩ := h
    simpa [Written, pieces] using spells_identifier ⟨_, rfl, hk, hs⟩
  | number k =>
    intro t h
    rw [Shows] at h
    have hk : (Num.int k).text.toList = Nat.toDigits 10 k := by
      have : toString (k : Int) = Nat.repr k := rfl
      simp [Num.text, this]
    refine spells_constant h rfl ?_
    simpa [pieces, hk] using Renders.single (Num.int k).text
  | text s =>
    intro t h
    rw [Shows] at h
    refine spells_constant h rfl ?_
    have := Renders.text (s := "\"") (.text (s := escape s) (.single "\""))
    simpa [pieces, Token.chars, escape] using this
  | bool b =>
    intro t h
    rw [Shows] at h
    refine spells_constant h rfl ?_
    simpa [pieces] using
      Renders.single (if b then "true" else "false")
  | null =>
    intro t h
    rw [Shows] at h
    refine spells_constant h rfl ?_
    simpa [pieces] using Renders.single "null"
  | unary op e ih =>
    intro t h
    rw [Shows] at h
    obtain ⟨n, rfl, hk, hop, ⟨a, ha, hs⟩⟩ := h
    have := spells_unary hk hop ha (signsMeet_of_shows hs) ((ih a hs).operand hs 17)
    rw [Written, pieces]
    generalize (op.isWord || meets op e) = gap at this ⊢
    cases gap <;> simpa using this
  | update op isBefore e ih =>
    intro t h
    rw [Shows] at h
    obtain ⟨n, rfl, hk, hop, hb, ⟨a, ha, hs⟩, -⟩ := h
    have := spells_update hk hop hb ha ((ih a hs).operand hs _)
    rw [Written, pieces]
    cases isBefore <;> simpa using this
  | binary op l r ihl ihr =>
    intro t h
    rw [Shows] at h
    obtain ⟨n, rfl, hk, hop, ⟨a, ha, hl⟩, ⟨b, hb, hr⟩⟩ := h
    have := spells_binary hk hop ha hb (leastLevel_of_shows hl) (leastLevel_of_shows hr)
      ((ihl a hl).operand hl (leftLeast op l)) ((ihr b hr).operand hr (rightLeast op r))
    simpa [Written, pieces] using this
  | conditional c a b ihc iha ihb =>
    intro t h
    rw [Shows] at h
    obtain ⟨n, rfl, hk, ⟨x, hx, hc⟩, ⟨y, hy, ha⟩, ⟨z, hz, hb⟩⟩ := h
    have := spells_conditional hk hx hy hz ((ihc x hc).operand hc 5) ((iha y ha).operand ha 3)
      ((ihb z hb).operand hb 3)
    simpa [Written, pieces] using this
  | assign op e v ihe ihv =>
    intro t h
    rw [Shows] at h
    obtain ⟨n, rfl, hk, hop, -, ⟨a, ha, he⟩, -, ⟨b, hb, hv⟩⟩ := h
    have := spells_assign hk hop ha hb (ihe a he) ((ihv b hv).operand hv 3)
    simpa [Written, pieces] using this
  | sequence es ih =>
    intro t h
    rw [Shows] at h
    obtain ⟨n, rfl, hk, ⟨c, hc, ts, rfl, hs⟩, -⟩ := h
    rw [Written, pieces, chars_separated]
    exact spells_sequence (printsItem_of_showsAll hs ih) (isNull_of_showsAll hs) hk hc
  | await e ih =>
    intro t h
    rw [Shows] at h
    obtain ⟨n, rfl, hk, ⟨a, ha, hs⟩⟩ := h
    have := spells_worded hk ((ih a hs).operand hs 17) (Renders.single "await ")
      fun ps ho => by
        simp [expandKind, Source.await, attr_of_get? ha, unaryLevel, ho]
    simpa [Written, pieces] using this
  | pause =>
    intro t h
    rw [Shows] at h
    obtain ⟨n, rfl, hk, ha, hd⟩ := h
    rw [Flag] at hd
    refine spells_of_expand hk ([.text "yield"]) ?_ ?_
    · simp [expandKind, Source.yield, ha, hd, isNull]
    · simpa [pieces] using Renders.single "yield"
  | yield e ih =>
    intro t h
    rw [Shows] at h
    obtain ⟨n, rfl, hk, ⟨a, ha, hs⟩, hd⟩ := h
    have := spells_worded hk ((ih a hs).operand hs 3)
      (Renders.text (s := "yield") (.single " ")) fun ps => expand_yield ha hs hd
    simpa [Written, pieces] using this
  | delegate e ih =>
    intro t h
    rw [Shows] at h
    obtain ⟨n, rfl, hk, ⟨a, ha, hs⟩, hd⟩ := h
    have := spells_worded hk ((ih a hs).operand hs 3)
      (Renders.text (s := "yield*") (.single " ")) fun ps => expand_yield ha hs hd
    simpa [Written, pieces] using this
  | member e s ih =>
    intro t h
    rw [Shows] at h
    obtain ⟨n, rfl, hk, ⟨a, ha, hs⟩, hc, ho, -, hn⟩ := h
    have := spells_name hk ha ho hc hn ((ih a hs).objectOperand hs)
    simpa [Written, pieces] using this
  | index e p ih ihp =>
    intro t h
    rw [Shows] at h
    obtain ⟨n, rfl, hk, ⟨a, ha, hs⟩, hc, ho, ⟨b, hb, hsp⟩⟩ := h
    have hlevel : atLeast 1 p (pieces p) = pieces p :=
      if_neg (Nat.not_lt.2 (one_le_rank p.level))
    have := spells_property hk ha ho hc hb ((ih a hs).objectOperand hs) ((ihp b hsp).operand hsp 1)
    rw [hlevel] at this
    simpa [Written, pieces] using this
  | call e es ih ihs =>
    intro t h
    rw [Shows] at h
    obtain ⟨n, rfl, hk, ⟨a, ha, hs⟩, ho, ⟨c, hc, ts, rfl, hts⟩⟩ := h
    have := spells_arguments (printsItem_of_showsAll hts ihs) (isNull_of_showsAll hts) hk ha ho hc
      ((ih a hs).objectOperand hs)
    rw [← chars_separated] at this
    simpa [Written, pieces, inParens] using this

theorem print_of_shows (h : Shows e t) : print t = .ok (String.ofList (chars (pieces e))) :=
  Spells.print (written_of_shows e t h)

end Overload.Syntax
