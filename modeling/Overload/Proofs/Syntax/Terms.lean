import Overload.Proofs.Syntax.Access

/-!
Terms with integers of either sign in them: a negative one is written with a sign that belongs to no
operator.
-/

namespace Overload.Syntax

open Kind Source

variable {t : Tree}

inductive Term where
  | ident (name : String)
  | integer (z : Int)
  | unary (op : PrefixOp) (argument : Term)
  | update (op : UpdateOp) (isBefore : Bool) (name : String)
  | binary (op : BinaryOp) (left right : Term)
  | conditional (test consequent alternate : Term)
  | sequence (items : List Term)
  | link (isOptional : Bool) (object : Term) (link : Link Term)

namespace Term

theorem induction {P : Term → Prop} (ident : ∀ s, P (.ident s)) (integer : ∀ z, P (.integer z))
    (unary : ∀ op e, P e → P (.unary op e)) (update : ∀ op b s, P (.update op b s))
    (binary : ∀ op l r, P l → P r → P (.binary op l r))
    (conditional : ∀ c a b, P c → P a → P b → P (.conditional c a b))
    (sequence : ∀ es, (∀ e ∈ es, P e) → P (.sequence es))
    (link : ∀ o e l, P e → (∀ x ∈ l.operands, P x) → P (.link o e l)) (e : Term) : P e := by
  refine @Term.rec P (fun es => ∀ e ∈ es, P e) (fun l => ∀ x ∈ l.operands, P x) ident integer unary
    update binary conditional sequence link ?_ ?_ ?_ ?_ ?_ e
  · simp
  · intro a as ha has
    simpa using ⟨ha, has⟩
  · simp [Link.operands]
  · simp [Link.operands]
  · exact fun as h => h

/-- The tree is the node that stands for the term, whatever other fields it has. -/
inductive Shows : Term → Tree → Prop
  | ident {n : Node} {s : String} : n.kind = .str identifier.name →
      Field "name" (· = .str s) n → isIdentifier s = true → Shows (.ident s) n.toTree
  | integer {z : Int} {t : Tree} : Constant (.num (.int z)) t → Shows (.integer z) t
  | unary {n : Node} {op : PrefixOp} {e : Term} {t : Tree} :
      n.kind = .str unaryExpression.name → Field "operator" (· = .str op.token) n →
      n.get? "argument" = some t → Shows e t → Shows (.unary op e) n.toTree
  | update {n : Node} {op : UpdateOp} {isBefore : Bool} {s : String} :
      n.kind = .str updateExpression.name → Field "operator" (· = .str op.token) n →
      Field "prefix" (·.truthy = isBefore) n →
      Field "argument" (OfKind .identifier (Field "name" (· = .str s))) n →
      isIdentifier s = true → Shows (.update op isBefore s) n.toTree
  | binary {n : Node} {op : BinaryOp} {l r : Term} {t u : Tree} :
      n.kind = .str (if isLogical op then logicalExpression else binaryExpression).name →
      Field "operator" (· = .str op.token) n → n.get? "left" = some t → Shows l t →
      n.get? "right" = some u → Shows r u → Shows (.binary op l r) n.toTree
  | conditional {n : Node} {c a b : Term} {t u v : Tree} :
      n.kind = .str conditionalExpression.name → n.get? "test" = some t → Shows c t →
      n.get? "consequent" = some u → Shows a u → n.get? "alternate" = some v → Shows b v →
      Shows (.conditional c a b) n.toTree
  | sequence {n : Node} {es : List Term} {ts : List Tree} :
      n.kind = .str sequenceExpression.name → n.get? "expressions" = some (.list ts) →
      List.Forall₂ Shows es ts → Shows (.sequence es) n.toTree
  | name {n : Node} {o : Bool} {e : Term} {t : Tree} {s : String} :
      n.kind = .str memberExpression.name → n.get? "object" = some t → Shows e t →
      Flag "optional" o n → Flag "computed" false n → isName s = true →
      Field "property" (OfKind .identifier (Field "name" (· = .str s))) n →
      Shows (.link o e (.name s)) n.toTree
  | property {n : Node} {o : Bool} {e p : Term} {t u : Tree} :
      n.kind = .str memberExpression.name → n.get? "object" = some t → Shows e t →
      Flag "optional" o n → Flag "computed" true n → n.get? "property" = some u → Shows p u →
      Shows (.link o e (.property p)) n.toTree
  | arguments {n : Node} {o : Bool} {e : Term} {as : List Term} {t : Tree} {ts : List Tree} :
      n.kind = .str callExpression.name → n.get? "callee" = some t → Shows e t →
      Flag "optional" o n → n.get? "arguments" = some (.list ts) → List.Forall₂ Shows as ts →
      Shows (.link o e (.arguments as)) n.toTree

def rank : Term → Nat
  | .ident _ | .integer _ => 21
  | .unary _ _ => 17
  | .update _ isBefore _ => if isBefore then 17 else 18
  | .binary op _ _ => (levelOf op).rank
  | .conditional _ _ _ => 4
  | .sequence _ => 1
  | .link _ _ _ => 20

def isInteger : Term → Bool
  | .integer _ => true
  | _ => false

def meets (op : PrefixOp) : Term → Bool
  | .unary op' _ => (op == .pos || op == .neg) && op' == op
  | .update op' true _ => op == .pos && op' == .increment || op == .neg && op' == .decrement
  | _ => false

def merges (op : PrefixOp) : Term → Bool
  | .integer z => op == .neg && z < 0
  | _ => false

def mixes (op : BinaryOp) : Term → Bool
  | .binary op' _ _ => isLogical op && isLogical op' && (op == .nullish) != (op' == .nullish)
  | _ => false

def leftLeast (op : BinaryOp) (e : Term) : Nat :=
  if mixes op e then 21 else if op = .pow then 18 else (levelOf op).rank

def rightLeast (op : BinaryOp) (e : Term) : Nat :=
  if mixes op e then 21 else if op = .pow then 16 else (levelOf op).rank + 1

def atLeast (least : Nat) (e : Term) (ps : List Piece) : List Piece :=
  if e.rank < least then enclosed ps else ps

def object (e : Term) (ps : List Piece) : List Piece :=
  if e.isInteger then enclosed ps else atLeast 20 e ps

mutual

def pieces : Term → List Piece
  | .ident s => [.token (.word s)]
  | .integer z =>
    if z < 0 then [mark "-", .token (.number z.natAbs)] else [.token (.number z.natAbs)]
  | .unary op e =>
    if merges op e then mark "--" :: (pieces e).tail
    else .token (symbol op.token) :: (if op.isWord || meets op e then [.gap] else []) ++
      atLeast 17 e (pieces e)
  | .update op isBefore s =>
    if isBefore then [.token (symbol op.token), .token (.word s)]
    else [.token (.word s), .token (symbol op.token)]
  | .binary op l r => atLeast (leftLeast op l) l (pieces l) ++ .gap :: .token (symbol op.token) ::
    .gap :: atLeast (rightLeast op r) r (pieces r)
  | .conditional c a b => atLeast 5 c (pieces c) ++ .gap :: mark "?" :: .gap ::
    atLeast 3 a (pieces a) ++ .gap :: mark ":" :: .gap :: atLeast 3 b (pieces b)
  | .sequence es => separated (listed es)
  | .link o e l => object e (pieces e) ++ linkPieces o l
termination_by structural e => e

def linkPieces (o : Bool) : Link Term → List Piece
  | .name s => [mark (if o then "?." else "."), .token (.word s)]
  | .property p => Access.questioned o ++ mark "[" :: pieces p ++ [mark "]"]
  | .arguments as => Access.questioned o ++ enclosed (separated (listed as))
termination_by structural l => l

def listed : List Term → List (List Piece)
  | [] => []
  | e :: es => atLeast 3 e (pieces e) :: listed es
termination_by structural es => es

end

def kind : Term → Kind
  | .ident _ => .identifier
  | .integer _ => .literal
  | .unary _ _ => .unaryExpression
  | .update _ _ _ => .updateExpression
  | .binary op _ _ => if isLogical op then .logicalExpression else .binaryExpression
  | .conditional _ _ _ => .conditionalExpression
  | .sequence _ => .sequenceExpression
  | .link _ _ (.arguments _) => .callExpression
  | .link _ _ _ => .memberExpression

lemma Shows.exists_node {e : Term} (h : Shows e t) :
    ∃ n : Node, t = n.toTree ∧ n.kind = .str e.kind.name := by
  cases h with
  | integer h =>
    obtain ⟨n, ht, hk, -⟩ := h
    exact ⟨n, ht, hk⟩
  | ident hk | unary hk | update hk | binary hk | conditional hk | sequence hk | name hk
  | property hk | arguments hk => exact ⟨_, rfl, hk⟩

lemma Shows.isNull {e : Term} (h : Shows e t) : t.isNull = false := by
  obtain ⟨n, rfl, -⟩ := h.exists_node
  rfl

lemma Shows.precedence {e : Term} (h : Shows e t) : Source.precedence t = .ok e.rank := by
  cases h with
  | update hk _ hb =>
    obtain ⟨b, hb, rfl⟩ := hb
    simp only [Source.precedence, asNode_toTree, kind?_of_kind hk, attr_of_get? hb, ok_bind, rank]
    rfl
  | @binary _ op _ _ _ _ hk hop =>
    obtain ⟨c, hc, rfl⟩ := hop
    have hkind := kind?_of_kind hk
    split at hkind <;>
      simp [Source.precedence, asNode_toTree, hkind, attr_of_get? hc, operatorLevel_token, rank]
  | integer h =>
    obtain ⟨n, rfl, hk, -⟩ := h
    simp only [Source.precedence, asNode_toTree, kind?_of_kind hk, ok_bind]
    rfl
  | ident hk | unary hk | conditional hk | sequence hk | name hk | property hk | arguments hk =>
    simp only [Source.precedence, asNode_toTree, kind?_of_kind hk, ok_bind]
    rfl

lemma Shows.isNumberLiteral {e : Term} (h : Shows e t) :
    Source.isNumberLiteral t = .ok e.isInteger := by
  cases h with
  | integer h =>
    obtain ⟨n, rfl, hk, -, -, hv⟩ := h
    have hg : n.toTree.get "value" = .ok (n.get "value") := rfl
    simp [Source.isNumberLiteral, kind_toTree hk, Tree.isText, Kind.name, hg, hv, isInteger]
  | @binary _ op _ _ _ _ hk =>
    rw [Source.isNumberLiteral, kind_toTree hk]
    cases isLogical op <;> rfl
  | ident hk | unary hk | update hk | conditional hk | sequence hk | name hk | property hk
  | arguments hk =>
    rw [Source.isNumberLiteral, kind_toTree hk]
    rfl

lemma Shows.signsMeet {op : PrefixOp} {e : Term} (h : Shows e t) :
    Source.signsMeet op.token t = .ok (meets op e) := by
  cases h with
  | @unary n op' e u hk hc =>
    obtain ⟨c, hc, rfl⟩ := hc
    simp only [Source.signsMeet, kind_toTree hk, Tree.attr_toTree, attr_of_get? hc, ok_bind]
    cases op <;> cases op' <;> rfl
  | @update n op' isBefore s hk hc hb =>
    obtain ⟨c, hc, rfl⟩ := hc
    obtain ⟨b, hb, rfl⟩ := hb
    simp only [Source.signsMeet, kind_toTree hk, Tree.attr_toTree, attr_of_get? hc, attr_of_get? hb,
      ok_bind]
    cases op <;> cases op' <;> cases b.truthy <;> rfl
  | integer h =>
    obtain ⟨n, rfl, hk, -⟩ := h
    exact signsMeet_of_kind _ hk (by decide)
  | @binary _ op' _ _ _ _ hk =>
    exact signsMeet_of_kind _ hk (by cases isLogical op' <;> decide)
  | ident hk | conditional hk | sequence hk | name hk | property hk | arguments hk =>
    exact signsMeet_of_kind _ hk (by decide)

lemma Shows.mixesNullish {op : BinaryOp} {e : Term} (h : Shows e t) (hop : isLogical op = true) :
    Source.mixesNullish op.token t = .ok (mixes op e) := by
  cases h with
  | binary hk hc => exact mixesNullish_of_operator hop hk hc
  | integer h =>
    obtain ⟨n, rfl, hk, -⟩ := h
    rw [Source.mixesNullish, kind_toTree hk]
    rfl
  | ident hk | unary hk | update hk | conditional hk | sequence hk | name hk | property hk
  | arguments hk =>
    rw [Source.mixesNullish, kind_toTree hk]
    rfl

lemma Shows.leastLevel {op : BinaryOp} {e : Term} (h : Shows e t) (level : Nat) :
    Source.leastLevel op.token level t = .ok (if mixes op e then 21 else level) := by
  refine leastLevel_of_mixes h.mixesNullish (fun hop => ?_) level
  cases e <;> simp [mixes, hop]

def Written (e : Term) (t : Tree) : Prop := Spells t (chars (pieces e))

lemma Written.operand {e : Term} {t : Tree} (hs : Shows e t) (h : Written e t) (least : Nat) :
    SpellsAs (Source.operand t least) (chars (atLeast least e (pieces e))) := by
  rw [atLeast, apply_ite chars, chars_enclosed]
  exact Spells.operand h hs.precedence least

lemma Written.objectOperand {e : Term} (hs : Shows e t) (h : Written e t) :
    SpellsAs (Source.objectOperand t) (chars (object e (pieces e))) := by
  rw [object, apply_ite chars, chars_enclosed]
  exact Spells.objectOperand h hs.isNumberLiteral (h.operand hs 20)

lemma printsItem_of_shows {es : List Term} {ts : List Tree} (hs : List.Forall₂ Shows es ts)
    (ih : ∀ e ∈ es, ∀ t, Shows e t → Written e t) :
    List.Forall₂ PrintsItem ts ((listed es).map chars) := by
  induction hs with
  | nil => exact .nil
  | cons ht _ ihs =>
    obtain ⟨ps, ho, hp⟩ := (ih _ (by simp) _ ht).operand ht 3
    refine .cons ⟨ps, ?_, hp⟩ (ihs fun a ha => ih a (by simp [ha]))
    rw [listItem, ht.isNull]
    exact ho

lemma isNull_of_shows {es : List Term} {ts : List Tree} (hs : List.Forall₂ Shows es ts) :
    ∀ t ∈ ts, t.isNull = false := by
  induction hs with
  | nil => simp
  | cons ht _ ih => simpa using ⟨ht.isNull, ih⟩

lemma chars_integer (z : Int) : chars (pieces (.integer z)) = (Num.int z).text.toList := by
  cases z with
  | ofNat k =>
    have : toString (k : Int) = Nat.repr k := rfl
    have hk : ¬ (k : Int) < 0 := by omega
    simp [pieces, hk, Num.text, this]
  | negSucc k =>
    have : toString (Int.negSucc k) = "-" ++ Nat.repr (k + 1) := rfl
    simp [pieces, Num.text, this, Int.negSucc_lt_zero]

lemma chars_unary (op : PrefixOp) (e : Term) :
    chars (pieces (.unary op e)) = op.token.toList ++
      ((if op.isWord || meets op e then [' '] else []) ++ chars (atLeast 17 e (pieces e))) := by
  rw [pieces]
  split
  · rename_i hm
    cases e with
    | integer z =>
      obtain ⟨rfl, hz⟩ : op = .neg ∧ z < 0 := by simpa [merges] using hm
      simp [pieces, hz, meets, atLeast, rank, PrefixOp.token, PrefixOp.isWord]
    | _ => simp [merges] at hm
  · split <;> simp

lemma operand_name {s : String} (h : OfKind .identifier (Field "name" (· = .str s)) t) (least : Nat)
    (hl : least ≤ 21) : operand t least = .ok [.tree t] := by
  obtain ⟨n, rfl, hk, -⟩ := h
  have hp : precedence n.toTree = .ok 21 := by
    simp only [precedence, asNode_toTree, kind?_of_kind hk, ok_bind]
    rfl
  have : ¬ 21 < least := by omega
  simp [operand, hp, this]

lemma one_le_rank (e : Term) : 1 ≤ e.rank := by
  cases e with
  | binary op l r => exact Syntax.one_le_rank _
  | update op isBefore s => cases isBefore <;> simp [rank]
  | _ => simp [rank]

theorem written_of_shows (e : Term) : ∀ t, Shows e t → Written e t := by
  induction e using Term.induction with
  | ident s =>
    intro t h
    cases h with
    | ident hk hs _ =>
      simpa [Written, pieces] using spells_identifier ⟨_, rfl, hk, hs⟩
  | integer z =>
    intro t h
    cases h with
    | integer h =>
      rw [Written, chars_integer]
      exact spells_constant h rfl (.single _)
  | unary op e ih =>
    intro t h
    cases h with
    | unary hk hop ht hs =>
      rw [Written, chars_unary]
      exact spells_unary hk hop ht hs.signsMeet ((ih _ hs).operand hs 17)
  | update op isBefore s =>
    intro t h
    cases h with
    | update hk hop hb ha _ =>
      obtain ⟨t, ht, hs⟩ := ha
      have hword : (Token.word s).chars = s.toList := rfl
      have := spells_update hk hop hb ht
        ((spells_identifier hs).bare (operand_name hs _ (by split <;> decide)))
      cases isBefore <;> simpa [Written, pieces, hword] using this
  | binary op l r ihl ihr =>
    intro t h
    cases h with
    | binary hk hop ht hl hu hr =>
      have := spells_binary hk hop ht hu hl.leastLevel hr.leastLevel
        ((ihl _ hl).operand hl (leftLeast op l)) ((ihr _ hr).operand hr (rightLeast op r))
      simpa [Written, pieces] using this
  | conditional c a b ihc iha ihb =>
    intro t h
    cases h with
    | conditional hk ht hc hu ha hv hb =>
      have := spells_conditional hk ht hu hv ((ihc _ hc).operand hc 5) ((iha _ ha).operand ha 3)
        ((ihb _ hb).operand hb 3)
      simpa [Written, pieces] using this
  | sequence es ih =>
    intro t h
    cases h with
    | sequence hk hts hs =>
      rw [Written, pieces, chars_separated]
      exact spells_sequence (printsItem_of_shows hs ih) (isNull_of_shows hs) hk hts
  | link o e l ih ihs =>
    intro t h
    cases h with
    | name hk ht hs ho hc _ hn =>
      have := spells_name hk ht ho hc hn ((ih _ hs).objectOperand hs)
      simpa [Written, pieces, linkPieces] using this
    | @property _ _ _ p _ _ hk ht hs ho hc hu hp =>
      have hlevel : atLeast 1 p (pieces p) = pieces p := if_neg (Nat.not_lt.2 (one_le_rank p))
      have := spells_property hk ht ho hc hu ((ih _ hs).objectOperand hs)
        ((ihs _ (by simp [Link.operands]) _ hp).operand hp 1)
      rw [hlevel] at this
      cases o <;> simpa [Written, pieces, linkPieces, Access.questioned] using this
    | arguments hk ht hs ho hts has =>
      have := spells_arguments (printsItem_of_shows has ihs) (isNull_of_shows has) hk ht ho hts
        ((ih _ hs).objectOperand hs)
      rw [← chars_separated, ← chars_enclosed] at this
      cases o <;> simpa [Written, pieces, linkPieces, Access.questioned] using this

theorem print_of_shows {e : Term} (h : Shows e t) :
    print t = .ok (String.ofList (chars (pieces e))) :=
  Spells.print (written_of_shows e t h)

end Term

end Overload.Syntax
