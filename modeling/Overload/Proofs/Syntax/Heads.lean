import Overload.Proofs.Syntax.Balance
import Overload.Proofs.Syntax.Opening
import Overload.Proofs.Syntax.RoundTrip

/-! The head of a `for` loop up to its first semicolon. -/

namespace Overload.Syntax

open Source List Overload.Syntax.Expr

variable {ts us : List Token} {t u : Token} {e : Expr} {w : Token → Int}

variable {d : String × Option Expr}

def brackets : Token → Int
  | .mark m =>
    if ["(", "[", "\x7b"].contains m then 1
    else if [")", "]", "\x7d"].contains m then -1 else 0
  | _ => 0

lemma fair_brackets : Fair brackets := by
  refine ⟨by decide, by decide, by decide, fun t ht => ?_⟩
  cases t with
  | mark m =>
    have hm : m ∉ structural := by simpa [Token.isPlain] using ht
    simp only [structural, mem_cons, not_mem_nil, or_false, not_or] at hm
    simp [brackets, hm]
  | _ => rfl

def HasBareIn (ts : List Token) : Prop :=
  ∃ us vs, ts = us ++ .word "in" :: vs ∧ Pointless us ∧ height brackets us ≤ 0

lemma pointless_nil : Pointless [] := by simp [Pointless]

lemma Pointless.append (ht : Pointless ts) (hu : Pointless us) : Pointless (ts ++ us) := by
  rw [Pointless, getLast?_append]
  cases h : us.getLast? with
  | none => simpa [Pointless] using ht
  | some u => simpa [Pointless, h] using hu

lemma Pointless.of_append (h : Pointless (ts ++ us)) : Pointless us := by
  rw [Pointless, getLast?_append] at h
  intro hu
  simp [hu] at h

structure Closed (ts : List Token) : Prop where
  balanced : Balanced brackets ts
  pointless : Pointless ts

namespace Closed

lemma single (ht : brackets t = 0) (hp : t ≠ .mark ".") : Closed [t] :=
  ⟨.single ht, pointless_end [] hp⟩

lemma hasBareIn_append (h : Closed ts) : HasBareIn (ts ++ us) ↔ HasBareIn ts ∨ HasBareIn us := by
  constructor
  · rintro ⟨xs, ys, he, hp, hh⟩
    rcases append_eq_append_iff.1 he with ⟨as, rfl, rfl⟩ | ⟨bs, rfl, hb⟩
    · exact .inr ⟨as, ys, rfl, hp.of_append, by simpa [h.balanced.total] using hh⟩
    · cases bs with
      | nil => exact .inr ⟨[], ys, by simpa using hb.symm, pointless_nil, by simp⟩
      | cons b bs =>
        obtain ⟨rfl, -⟩ := List.cons.inj hb
        exact .inl ⟨xs, bs, rfl, hp, hh⟩
  · rintro (⟨xs, ys, rfl, hp, hh⟩ | ⟨xs, ys, rfl, hp, hh⟩)
    · exact ⟨xs, ys ++ us, by simp, hp, hh⟩
    · exact ⟨ts ++ xs, ys, by simp, h.pointless.append hp, by simpa [h.balanced.total] using hh⟩

end Closed

lemma hasBareIn_single : HasBareIn [t] ↔ t = .word "in" := by
  constructor
  · rintro ⟨us, vs, he, -⟩
    rcases singleton_eq_append_iff.1 he with ⟨rfl, h⟩ | ⟨-, h⟩ <;> simp_all
  · rintro rfl
    exact ⟨[], [], rfl, pointless_nil, by simp⟩

lemma hasBareIn_cons (ht : brackets t = 0) (hp : t ≠ .mark ".") :
    HasBareIn (t :: ts) ↔ t = .word "in" ∨ HasBareIn ts := by
  rw [← singleton_append, (Closed.single ht hp).hasBareIn_append, hasBareIn_single]

lemma not_hasBareIn_nil : ¬ HasBareIn [] := by
  rintro ⟨us, vs, he, -⟩
  simp at he

lemma not_hasBareIn_enclose (h : Balanced brackets ts) (ht : brackets t = 1)
    (hu : brackets u = -1) : ¬ HasBareIn (t :: ts ++ [u]) := by
  rintro ⟨xs, ys, he, -, hh⟩
  rcases append_eq_append_iff.1 he with ⟨as, rfl, ha⟩ | ⟨bs, hb, hys⟩
  · rcases singleton_eq_append_iff.1 ha with ⟨rfl, h⟩ | ⟨-, h⟩
    · obtain ⟨rfl, -⟩ := List.cons.inj h
      simp [brackets] at hu
    · simp at h
  · cases xs with
    | nil =>
      obtain ⟨rfl, -⟩ := List.cons.inj (hb.trans (nil_append bs) ▸ hys : _ :: _ = _ :: ts ++ _)
      simp [brackets] at ht
    | cons x xs =>
      obtain ⟨rfl, hts⟩ := List.cons.inj hb
      have := h.nonneg xs bs hts
      rw [height_cons, ht] at hh
      omega

lemma closed_enclose (h : Balanced brackets ts) (ht : brackets t = 1) (hu : brackets u = -1)
    (hp : u ≠ .mark ".") : Closed (t :: ts ++ [u]) :=
  ⟨h.enclose (by omega), pointless_end _ hp⟩

lemma closed_commas {parts : List (List Token)} (h : ∀ p ∈ parts, Closed p) :
    Closed (commas parts) :=
  ⟨fair_brackets.commas fun p hp => (h p hp).balanced, pointless_commas fun p hp => (h p hp).pointless⟩

lemma hasBareIn_commas {parts : List (List Token)} (h : ∀ p ∈ parts, Closed p) :
    HasBareIn (commas parts) ↔ ∃ p ∈ parts, HasBareIn p := by
  induction parts with
  | nil => simpa [commas, intercalate] using not_hasBareIn_nil
  | cons p parts ih =>
    rw [forall_mem_cons] at h
    cases parts with
    | nil => simp [commas, intercalate]
    | cons q parts =>
      have hsplit : commas (p :: q :: parts) = p ++ .mark "," :: commas (q :: parts) := by
        simp [commas, intercalate]
      rw [hsplit, h.1.hasBareIn_append, hasBareIn_cons (by decide) (by decide), ih h.2]
      simp

def openAt (least : Nat) (e : Expr) (answer : Bool) : Bool := least ≤ e.level.rank && answer

mutual

def Expr.exposesIn : Expr → Bool
  | .binary op l r => op == .isIn || openAt (leftLeast op l) l l.exposesIn ||
    openAt (rightLeast op r) r r.exposesIn
  | .conditional c a b => openAt 5 c c.exposesIn || openAt 3 a a.exposesIn || openAt 3 b b.exposesIn
  | .assign _ _ v => openAt 3 v v.exposesIn
  | .sequence es => anyExposesIn es
  | .yield e => openAt 3 e e.exposesIn
  | .delegate e => openAt 3 e e.exposesIn
  | _ => false

def anyExposesIn : List Expr → Bool
  | [] => false
  | e :: es => openAt 3 e e.exposesIn || anyExposesIn es

end

lemma openAt_eq_false {least : Nat} {answer : Bool} (h : least ≤ e.level.rank → answer = false) :
    openAt least e answer = false := by
  simpa [openAt] using h

-- only what binds looser than a shift can have an `in` at its outermost level
lemma exposesIn_of_rank (e : Expr) : 13 ≤ e.level.rank → e.exposesIn = false := by
  induction e using induction with
  | binary op l r ihl ihr =>
    intro h
    have hop : 13 ≤ (levelOf op).rank := h
    have hin : (op == .isIn) = false := by
      cases op <;> first | rfl | simp [levelOf, Level.rank] at hop
    have hl : 13 ≤ leftLeast op l := by
      rw [leftLeast]
      split_ifs <;> omega
    have hr : 13 ≤ rightLeast op r := by
      rw [rightLeast]
      split_ifs <;> omega
    simp [exposesIn, hin, openAt_eq_false fun h => ihl (Nat.le_trans hl h),
      openAt_eq_false fun h => ihr (Nat.le_trans hr h)]
  | conditional | assign | sequence | yield | delegate =>
    intro h
    simp [level, Level.rank] at h
  | _ => exact fun _ => rfl

structure Exposure (e : Expr) (ps : List Piece) : Prop where
  closed : Closed (tokens ps)
  iff : HasBareIn (tokens ps) ↔ e.exposesIn = true

namespace Exposure

variable {ps : List Piece}

lemma enclosed (h : Exposure e ps) :
    Closed (tokens (enclosed ps)) ∧ ¬ HasBareIn (tokens (enclosed ps)) := by
  have he : tokens (Syntax.enclosed ps) = .mark "(" :: tokens ps ++ [.mark ")"] := by
    simp [Syntax.enclosed]
  rw [he]
  exact ⟨closed_enclose h.closed.balanced (by decide) (by decide) (by decide),
    not_hasBareIn_enclose h.closed.balanced (by decide) (by decide)⟩

lemma closed_atLeast (h : Exposure e ps) (least : Nat) : Closed (tokens (atLeast least e ps)) := by
  rw [atLeast]
  split
  · exact h.enclosed.1
  · exact h.closed

lemma atLeast_iff (h : Exposure e ps) (least : Nat) :
    HasBareIn (tokens (atLeast least e ps)) ↔ openAt least e e.exposesIn = true := by
  rw [atLeast, openAt]
  split
  · rename_i hlt
    simpa [Nat.not_le.2 hlt] using h.enclosed.2
  · rename_i hle
    simpa [Nat.not_lt.1 hle] using h.iff

lemma not_hasBareIn_atLeast (h : Exposure e ps) {least : Nat} (hl : 13 ≤ least) :
    ¬ HasBareIn (tokens (atLeast least e ps)) := by
  rw [h.atLeast_iff, openAt_eq_false fun hle => exposesIn_of_rank e (Nat.le_trans hl hle)]
  simp

lemma closed_object (h : Exposure e ps) : Closed (tokens (object e ps)) := by
  rw [object]
  split
  · exact h.enclosed.1
  · exact h.closed_atLeast 20

lemma not_hasBareIn_object (h : Exposure e ps) : ¬ HasBareIn (tokens (object e ps)) := by
  rw [object]
  split
  · exact h.enclosed.2
  · exact h.not_hasBareIn_atLeast (by decide)

end Exposure

lemma closed_of_reads {l : Level} (h : Reads l ts e) : Closed ts :=
  ⟨h.balanced fair_brackets, h.pointless⟩

lemma closed_listed {es : List Expr} (h : ∀ e ∈ es, Exposure e (pieces e)) :
    ∀ p ∈ (listed es).map tokens, Closed p := by
  rw [map_tokens_listed]
  intro p hp
  obtain ⟨a, ha, rfl⟩ := mem_map.1 hp
  obtain ⟨e, he, rfl⟩ := mem_map.1 ha
  exact (h e he).closed_atLeast 3

lemma anyExposesIn_iff {es : List Expr} (h : ∀ e ∈ es, Exposure e (pieces e)) :
    (∃ p ∈ (listed es).map tokens, HasBareIn p) ↔ anyExposesIn es = true := by
  induction es with
  | nil => simp [listed, anyExposesIn]
  | cons e es ih =>
    rw [forall_mem_cons] at h
    rw [anyExposesIn, Bool.or_eq_true, ← ih h.2, ← h.1.atLeast_iff 3]
    simp [listed]

lemma not_hasBareIn_prefix (ht : t.isPlain = true) (hp : t ≠ .mark ".") (hin : t ≠ .word "in")
    (h : ¬ HasBareIn ts) : ¬ HasBareIn (t :: ts) := by
  rw [hasBareIn_cons (fair_brackets.plain t ht) hp]
  exact not_or.2 ⟨hin, h⟩

lemma exposure_binary {op : BinaryOp} {l r : Expr} (hl : Exposure l (pieces l))
    (hr : Exposure r (pieces r)) :
    HasBareIn (tokens (pieces (.binary op l r))) ↔ (Expr.binary op l r).exposesIn = true := by
  have hop : symbol op.token ≠ .mark "." := by cases op <;> decide
  have hin : symbol op.token = .word "in" ↔ (op == .isIn) = true := by cases op <;> decide
  have htokens : tokens (pieces (.binary op l r)) =
      tokens (atLeast (leftLeast op l) l (pieces l)) ++ symbol op.token ::
        tokens (atLeast (rightLeast op r) r (pieces r)) := by simp [pieces]
  rw [htokens, (hl.closed_atLeast _).hasBareIn_append, hl.atLeast_iff,
    hasBareIn_cons (fair_brackets.plain _ (isPlain_binary op)) hop, hr.atLeast_iff, hin,
    exposesIn, Bool.or_eq_true, Bool.or_eq_true]
  exact or_left_comm.trans or_assoc.symm

lemma exposure_conditional {c a b : Expr} (hc : Exposure c (pieces c)) (ha : Exposure a (pieces a))
    (hb : Exposure b (pieces b)) :
    HasBareIn (tokens (pieces (.conditional c a b))) ↔
      (Expr.conditional c a b).exposesIn = true := by
  have htokens : tokens (pieces (.conditional c a b)) = tokens (atLeast 5 c (pieces c)) ++
      .mark "?" :: (tokens (atLeast 3 a (pieces a)) ++ .mark ":" ::
        tokens (atLeast 3 b (pieces b))) := by simp [pieces]
  rw [htokens, (hc.closed_atLeast _).hasBareIn_append, hc.atLeast_iff,
    hasBareIn_cons (by decide) (by decide), (ha.closed_atLeast _).hasBareIn_append, ha.atLeast_iff,
    hasBareIn_cons (by decide) (by decide), hb.atLeast_iff, exposesIn, Bool.or_eq_true,
    Bool.or_eq_true]
  simp [or_assoc]

lemma exposure_assign {op : Option BinaryOp} {v : Expr} (hop : op.all isAssignable = true)
    (he : Exposure e (pieces e)) (ht : e.isTarget = true) (hv : Exposure v (pieces v)) :
    HasBareIn (tokens (pieces (.assign op e v))) ↔ (assign op e v).exposesIn = true := by
  have hrank : 13 ≤ e.level.rank := by
    cases e <;> simp [isTarget] at ht <;> simp [level, Level.rank]
  have hmark : symbol (assignToken op) ≠ .mark "." ∧ symbol (assignToken op) ≠ .word "in" := by
    cases op with
    | none => decide
    | some op => cases op <;> decide
  have htokens : tokens (pieces (.assign op e v)) = tokens (pieces e) ++
      symbol (assignToken op) :: tokens (atLeast 3 v (pieces v)) := by simp [pieces]
  rw [htokens, he.closed.hasBareIn_append, he.iff, exposesIn_of_rank e hrank,
    hasBareIn_cons (fair_brackets.plain _ (isPlain_assign hop)) hmark.1, hv.atLeast_iff,
    exposesIn]
  simp [hmark.2]

lemma not_hasBareIn_member {s : String} (hc : Closed ts) (h : ¬ HasBareIn ts) :
    ¬ HasBareIn (ts ++ [.mark ".", .word s]) := by
  rw [hc.hasBareIn_append]
  rintro (hts | ⟨us, vs, he, hp, -⟩)
  · exact h hts
  · -- the only word stands right behind the point
    cases us with
    | nil => simp at he
    | cons u us =>
      obtain ⟨rfl, hrest⟩ := List.cons.inj he
      rcases singleton_eq_append_iff.1 hrest with ⟨rfl, -⟩ | ⟨-, hw⟩
      · exact hp rfl
      · simp at hw

lemma not_hasBareIn_link (hc : Closed ts) (h : ¬ HasBareIn ts) (hb : Balanced brackets us)
    (ht : brackets t = 1) (hu : brackets u = -1) : ¬ HasBareIn (ts ++ t :: us ++ [u]) := by
  rw [append_assoc, hc.hasBareIn_append]
  exact not_or.2 ⟨h, not_hasBareIn_enclose hb ht hu⟩

lemma exposure_unary (op : PrefixOp) (h : Exposure e (pieces e)) :
    ¬ HasBareIn (tokens (pieces (.unary op e))) := by
  have hop : symbol op.token ≠ .mark "." ∧ symbol op.token ≠ .word "in" := by cases op <;> decide
  have htokens : tokens (pieces (.unary op e)) =
      symbol op.token :: tokens (atLeast 17 e (pieces e)) := by
    rw [pieces]
    split <;> simp
  rw [htokens]
  exact not_hasBareIn_prefix (isPlain_unary op) hop.1 hop.2 (h.not_hasBareIn_atLeast (by decide))

lemma exposure_update (op : UpdateOp) (isBefore : Bool) (h : Exposure e (pieces e)) :
    ¬ HasBareIn (tokens (pieces (.update op isBefore e))) := by
  have hop : symbol op.token ≠ .mark "." ∧ symbol op.token ≠ .word "in" := by cases op <;> decide
  cases isBefore with
  | true =>
    exact not_hasBareIn_prefix (isPlain_update op) hop.1 hop.2 (h.not_hasBareIn_atLeast (by decide))
  | false =>
    have htokens : tokens (pieces (.update op false e)) =
        tokens (atLeast 20 e (pieces e)) ++ [symbol op.token] := by simp [pieces]
    rw [htokens, (h.closed_atLeast 20).hasBareIn_append, hasBareIn_single]
    exact not_or.2 ⟨h.not_hasBareIn_atLeast (by decide), hop.2⟩

theorem exposure_of_shows (e : Expr) : ∀ t, Shows e t → Exposure e (pieces e) := by
  intro t h
  refine ⟨closed_of_reads (reads_pieces e t h), ?_⟩
  have hclosed (e : Expr) (t : Tree) (h : Shows e t) : Closed (tokens (pieces e)) :=
    closed_of_reads (reads_pieces e t h)
  induction e using induction generalizing t with
  | ident s =>
    rw [Shows] at h
    obtain ⟨n, -, -, -, hs⟩ := h
    have hne : s ≠ "in" := by
      rintro rfl
      exact absurd hs (by decide)
    simpa [pieces, hasBareIn_single, exposesIn] using hne
  | number n | text s | null | pause => simp [pieces, hasBareIn_single, exposesIn]
  | bool b => cases b <;> simp [pieces, hasBareIn_single, exposesIn]
  | unary op e ih =>
    rw [Shows] at h
    obtain ⟨n, -, -, -, a, -, ha⟩ := h
    simpa [exposesIn] using exposure_unary op ⟨hclosed e a ha, ih a ha⟩
  | update op isBefore e ih =>
    rw [Shows] at h
    obtain ⟨n, -, -, -, -, ⟨a, -, ha⟩, -⟩ := h
    simpa [exposesIn] using exposure_update op isBefore ⟨hclosed e a ha, ih a ha⟩
  | binary op l r ihl ihr =>
    rw [Shows] at h
    obtain ⟨n, -, -, -, ⟨a, -, ha⟩, ⟨b, -, hb⟩⟩ := h
    exact exposure_binary ⟨hclosed l a ha, ihl a ha⟩ ⟨hclosed r b hb, ihr b hb⟩
  | conditional c a b ihc iha ihb =>
    rw [Shows] at h
    obtain ⟨n, -, -, ⟨x, -, hc⟩, ⟨y, -, ha⟩, ⟨z, -, hb⟩⟩ := h
    exact exposure_conditional ⟨hclosed c x hc, ihc x hc⟩ ⟨hclosed a y ha, iha y ha⟩
      ⟨hclosed b z hb, ihb z hb⟩
  | assign op e v ihe ihv =>
    rw [Shows] at h
    obtain ⟨n, -, -, -, hop, ⟨a, -, ha⟩, he, ⟨b, -, hb⟩⟩ := h
    exact exposure_assign hop ⟨hclosed e a ha, ihe a ha⟩ he ⟨hclosed v b hb, ihv b hb⟩
  | sequence es ih =>
    rw [Shows] at h
    obtain ⟨n, -, -, ⟨c, -, ts, rfl, hs⟩, -⟩ := h
    have hes : ∀ e ∈ es, Exposure e (pieces e) := by
      intro e he
      obtain ⟨t, ht⟩ := exists_of_showsAll hs e he
      exact ⟨hclosed e t ht, ih e he t ht⟩
    rw [pieces, tokens_separated, hasBareIn_commas (closed_listed hes), anyExposesIn_iff hes,
      exposesIn]
  | await e ih =>
    rw [Shows] at h
    obtain ⟨n, -, -, a, -, ha⟩ := h
    have hoperand := Exposure.not_hasBareIn_atLeast ⟨hclosed e a ha, ih a ha⟩ (by decide : 13 ≤ 17)
    simpa [pieces, exposesIn] using
      not_hasBareIn_prefix (t := .word "await") rfl (by decide) (by decide) hoperand
  | yield e ih =>
    rw [Shows] at h
    obtain ⟨n, -, -, ⟨a, -, ha⟩, -⟩ := h
    have hoperand := Exposure.atLeast_iff ⟨hclosed e a ha, ih a ha⟩ 3
    rw [pieces, tokens_token, tokens_gap, hasBareIn_cons rfl (by decide), hoperand, exposesIn]
    simp
  | delegate e ih =>
    rw [Shows] at h
    obtain ⟨n, -, -, ⟨a, -, ha⟩, -⟩ := h
    have hoperand := Exposure.atLeast_iff ⟨hclosed e a ha, ih a ha⟩ 3
    rw [pieces, mark, tokens_token, tokens_token, tokens_gap, hasBareIn_cons rfl (by decide),
      hasBareIn_cons (by decide) (by decide), hoperand, exposesIn]
    simp
  | member e s ih =>
    rw [Shows] at h
    obtain ⟨n, -, -, ⟨a, -, ha⟩, -⟩ := h
    have he : Exposure e (pieces e) := ⟨hclosed e a ha, ih a ha⟩
    simpa [pieces, exposesIn] using
      not_hasBareIn_member (s := s) he.closed_object he.not_hasBareIn_object
  | index e p ih ihp =>
    rw [Shows] at h
    obtain ⟨n, -, -, ⟨a, -, ha⟩, -, -, ⟨b, -, hb⟩⟩ := h
    have he : Exposure e (pieces e) := ⟨hclosed e a ha, ih a ha⟩
    simpa [pieces, exposesIn] using not_hasBareIn_link (t := .mark "[") (u := .mark "]")
      he.closed_object he.not_hasBareIn_object (hclosed p b hb).balanced (by decide) (by decide)
  | call e es ih ihs =>
    rw [Shows] at h
    obtain ⟨n, -, -, ⟨a, -, ha⟩, -, ⟨c, -, ts, rfl, hs⟩⟩ := h
    have he : Exposure e (pieces e) := ⟨hclosed e a ha, ih a ha⟩
    have hes : ∀ e ∈ es, Exposure e (pieces e) := by
      intro e he
      obtain ⟨t, ht⟩ := exists_of_showsAll hs e he
      exact ⟨hclosed e t ht, ihs e he t ht⟩
    have hitems := (closed_commas (closed_listed hes)).balanced
    simpa [pieces, tokens_separated, exposesIn] using
      not_hasBareIn_link (t := .mark "(") (u := .mark ")") he.closed_object
        he.not_hasBareIn_object hitems (by decide) (by decide)

def semicolons (t : Token) : Int := if t = .mark ";" then -1 else 0

lemma fair_semicolons : Fair semicolons := by
  refine ⟨by decide, by decide, by decide, fun t ht => ?_⟩
  rw [semicolons, if_neg]
  rintro rfl
  exact absurd ht (by decide)

lemma height_semicolons (ts : List Token) : height semicolons ts ≤ 0 := by
  induction ts with
  | nil => exact Int.le_refl 0
  | cons t ts ih =>
    rw [height_cons, semicolons]
    split <;> omega

lemma not_mem_of_balanced (h : Balanced semicolons ts) : .mark ";" ∉ ts := by
  intro hmem
  obtain ⟨us, vs, rfl⟩ := append_of_mem hmem
  have hsum := h.total
  have hus := height_semicolons us
  have hvs := height_semicolons vs
  have hmark : semicolons (.mark ";") = -1 := rfl
  rw [height_append, height_cons, hmark] at hsum
  omega

/-- What stands before the first semicolon: an expression, or names with their initial values. -/
inductive Init where
  | expression (e : Expr)
  | declaration (kind : String) (declarators : List (String × Option Expr))

namespace Init

def ShowsDeclarator (d : String × Option Expr) : Tree → Prop :=
  OfKind .variableDeclarator fun n => Field "id" (Syntax.Shows (.ident d.1)) n ∧
    match d.2 with
    | none => n.get "init" = .null
    | some e => Field "init" (Syntax.Shows e) n

def Shows : Init → Tree → Prop
  | .expression e => Syntax.Shows e
  | .declaration kind ds => OfKind .variableDeclaration fun n =>
    Field "kind" (· = .str kind) n ∧ kind ∈ ["var", "let", "const"] ∧
      Field "declarations" (fun c => ∃ ts, c = .list ts ∧ Forall₂ ShowsDeclarator ds ts) n

def value : Option Expr → List Piece
  | none => []
  | some e => .gap :: mark "=" :: .gap :: atLeast 3 e (Syntax.pieces e)

def declarator (d : String × Option Expr) : List Piece := .token (.word d.1) :: value d.2

def pieces : Init → List Piece
  | .expression e => Syntax.pieces e
  | .declaration kind ds => .token (.word kind) :: .gap :: separated (ds.map declarator)

def exposesIn : Init → Bool
  | .expression e => e.exposesIn
  | .declaration _ ds => ds.any fun d => d.2.any fun e => openAt 3 e e.exposesIn

lemma listItem_declarator {n : Node} (hk : n.kind = .str Kind.variableDeclarator.name) :
    listItem n.toTree = .ok [.tree n.toTree] := by
  have hprec : precedence n.toTree = .ok primaryLevel := by
    simp only [precedence, asNode_toTree, kind?_of_kind hk, ok_bind]
    rfl
  have hnull : n.toTree.isNull = false := rfl
  simp [listItem, hnull, operand, hprec, primaryLevel, assignmentLevel]

lemma prints_declarator {t : Tree} (h : ShowsDeclarator d t) :
    PrintsItem t (chars (declarator d)) := by
  obtain ⟨name, v⟩ := d
  obtain ⟨n, rfl, hk, ⟨c, hc, hid⟩, hinit⟩ := h
  have hp := written_of_shows _ c hid
  cases v with
  | none =>
    have hn : n.get "init" = .null := hinit
    have he : expand n = .ok [.tree c] := by
      simp [expand_of_kind hk, expandKind, variableDeclarator, attr_of_get? hc, hn, Tree.isNull]
    refine ⟨_, listItem_declarator hk, ?_⟩
    simpa [declarator, value, Syntax.pieces] using Renders.tree he hp
  | some e =>
    obtain ⟨u, hu, hs⟩ := hinit
    obtain ⟨ps, ho, hq⟩ := (written_of_shows e u hs).operand hs 3
    have he : expand n = .ok (.tree c :: .text " = " :: ps) := by
      simp [expand_of_kind hk, expandKind, variableDeclarator, attr_of_get? hc, get_of_get? hu,
        isNull_of_shows hs, assignmentLevel, ho]
    refine ⟨_, listItem_declarator hk, ?_⟩
    have := Renders.tree he (Renders.append hp (.text (s := " = ") hq))
    simpa [declarator, value, Syntax.pieces] using this

theorem prints_forHead {i : Init} {t : Tree} (h : i.Shows t) :
    SpellsAs (forHead t) (chars i.pieces) := by
  cases i with
  | expression e =>
    have hs : Syntax.Shows e t := h
    have hp := written_of_shows e t hs
    obtain ⟨n, rfl, hk⟩ := hs.exists_node
    have hne : (Tree.str e.kind.name).isText "VariableDeclaration" = false := by
      cases e with
      | binary op l r =>
        rw [Expr.kind]
        split <;> rfl
      | _ => rfl
    refine ⟨[.tree n.toTree], ?_, hp⟩
    have hnull : n.toTree.isNull = false := rfl
    simp [forHead, hnull, kind_toTree hk, hne]
  | declaration kind ds =>
    obtain ⟨n, rfl, hk, ⟨_, hkind, rfl⟩, -, ⟨_, hc, ts, rfl, hs⟩⟩ := h
    have hitems : Forall₂ PrintsItem ts ((ds.map declarator).map chars) := by
      clear hc
      induction hs with
      | nil => exact .nil
      | cons ht _ ih => exact .cons (prints_declarator ht) ih
    have hnull : ∀ t ∈ ts, t.isNull = false := by
      clear hc hitems
      induction hs with
      | nil => simp
      | cons ht _ ih =>
        obtain ⟨m, rfl, -⟩ := ht
        exact forall_mem_cons.2 ⟨rfl, ih⟩
    obtain ⟨ps, hl, hp⟩ := prints_list hitems hnull
    rw [← chars_separated] at hp
    refine ⟨.tree (.str kind) :: .text " " :: ps, ?_, ?_⟩
    · have htext : (Tree.str Kind.variableDeclaration.name).isText "VariableDeclaration" = true := rfl
      have hnull : n.toTree.isNull = false := rfl
      simp [forHead, hnull, kind_toTree hk, htext, declarationHead, Tree.attr_toTree,
        attr_of_get? hkind, attr_of_get? hc, hl]
    · have := Renders.string (s := kind) (.text (s := " ") hp)
      simpa [pieces] using this

lemma exists_declarator {ds : List (String × Option Expr)} {ts : List Tree}
    (h : Forall₂ ShowsDeclarator ds ts) : ∀ d ∈ ds, ∃ t, ShowsDeclarator d t := by
  induction h with
  | nil => simp
  | cons ht _ ih => exact forall_mem_cons.2 ⟨⟨_, ht⟩, ih⟩

lemma followed_declarator {t : Tree} (h : ShowsDeclarator d t) : Followed closers (declarator d) := by
  obtain ⟨name, v⟩ := d
  obtain ⟨n, -, -, ⟨c, -, hid⟩, hinit⟩ := h
  rw [Syntax.Shows] at hid
  obtain ⟨-, -, -, -, hident⟩ := hid
  have hname : isName name = true := ((Bool.and_eq_true _ _).mp hident).1
  cases v with
  | none => exact (followed_word hname).mono (subset_append_left _ _)
  | some e =>
    obtain ⟨u, -, hs⟩ := hinit
    exact (((spacing_pieces e u hs).atLeast 3).worded (t := .mark "=") (by decide)).worded hname

theorem spaced_pieces {i : Init} {t : Tree} (h : i.Shows t) : Spaced i.pieces := by
  cases i with
  | expression e => exact Followed.spaced (spacing_pieces e t h)
  | declaration kind ds =>
    obtain ⟨n, -, -, -, hkind, ⟨_, -, ts, rfl, hs⟩⟩ := h
    have hfits : isName kind = true := by
      revert hkind kind
      decide
    have hitems : ∀ ps ∈ ds.map declarator, Followed closers ps := by
      rw [forall_mem_map]
      intro d hd
      obtain ⟨t, ht⟩ := exists_declarator hs d hd
      exact followed_declarator ht
    exact ((Followed.separated hitems).worded (t := .word kind) hfits).spaced

lemma lex_pieces {i : Init} {t : Tree} (h : i.Shows t) :
    lex (chars i.pieces) = some (tokens i.pieces) :=
  lex_chars (spaced_pieces h)

lemma balanced_atLeast (hw : Fair w) {t : Tree} (h : Syntax.Shows e t) :
    Balanced w (tokens (atLeast 3 e (Syntax.pieces e))) :=
  (reads_operand (reads_pieces e t h) (m := .assignment) (by decide)).balanced hw

lemma balanced_declarator (hw : Fair w) {t : Tree} (h : ShowsDeclarator d t) :
    Balanced w (tokens (declarator d)) := by
  obtain ⟨name, v⟩ := d
  obtain ⟨n, -, -, -, hinit⟩ := h
  cases v with
  | none => exact hw.single rfl
  | some e =>
    obtain ⟨u, -, hs⟩ := hinit
    have := hw.cons (t := .word name) rfl
      (hw.cons (t := .mark "=") (by decide) (balanced_atLeast hw hs))
    simpa [declarator, value] using this

lemma pointless_declarator {t : Tree} (h : ShowsDeclarator d t) :
    Pointless (tokens (declarator d)) := by
  obtain ⟨name, v⟩ := d
  obtain ⟨n, -, -, -, hinit⟩ := h
  cases v with
  | none => exact pointless_end [] (by simp)
  | some e =>
    obtain ⟨u, -, hs⟩ := hinit
    have := ((exposure_of_shows e u hs).closed_atLeast 3).pointless.append_cons [.word name]
      (t := .mark "=") (by decide)
    simpa [declarator, value] using this

lemma hasBareIn_declarator {t : Tree} (h : ShowsDeclarator d t) :
    HasBareIn (tokens (declarator d)) ↔ (d.2.any fun e => openAt 3 e e.exposesIn) = true := by
  obtain ⟨name, v⟩ := d
  obtain ⟨n, -, -, ⟨c, -, hid⟩, hinit⟩ := h
  have hne : name ≠ "in" := by
    rintro rfl
    rw [Syntax.Shows] at hid
    obtain ⟨-, -, -, -, hident⟩ := hid
    exact absurd (show isIdentifier "in" = true from hident) (by decide)
  cases v with
  | none => simpa [declarator, value, hasBareIn_single] using hne
  | some e =>
    obtain ⟨u, -, hs⟩ := hinit
    have htokens : tokens (declarator (name, some e)) =
        .word name :: .mark "=" :: tokens (atLeast 3 e (Syntax.pieces e)) := by
      simp [declarator, value]
    rw [htokens, hasBareIn_cons rfl (by simp), hasBareIn_cons (by decide) (by decide),
      (exposure_of_shows e u hs).atLeast_iff 3]
    simp [hne]

theorem balanced_pieces (hw : Fair w) {i : Init} {t : Tree} (h : i.Shows t) :
    Balanced w (tokens i.pieces) := by
  cases i with
  | expression e => exact (reads_pieces e t h).balanced hw
  | declaration kind ds =>
    obtain ⟨n, -, -, -, -, ⟨_, -, ts, rfl, hs⟩⟩ := h
    rw [pieces, tokens_token, tokens_gap, tokens_separated]
    apply hw.cons rfl
    apply hw.commas
    simp only [forall_mem_map]
    intro d hd
    obtain ⟨t, ht⟩ := exists_declarator hs d hd
    exact balanced_declarator hw ht

theorem hasBareIn_pieces {i : Init} {t : Tree} (h : i.Shows t) :
    HasBareIn (tokens i.pieces) ↔ i.exposesIn = true := by
  cases i with
  | expression e => exact (exposure_of_shows e t h).iff
  | declaration kind ds =>
    obtain ⟨n, -, -, -, hkind, ⟨_, -, ts, rfl, hs⟩⟩ := h
    have hitems := exists_declarator hs
    have hclosed : ∀ p ∈ (ds.map declarator).map tokens, Closed p := by
      simp only [forall_mem_map]
      intro d hd
      obtain ⟨t, ht⟩ := hitems d hd
      exact ⟨balanced_declarator fair_brackets ht, pointless_declarator ht⟩
    have hne : kind ≠ "in" := by
      revert hkind kind
      decide
    rw [pieces, tokens_token, tokens_gap, tokens_separated, hasBareIn_cons rfl (by simp),
      hasBareIn_commas hclosed, exposesIn, any_eq_true]
    simp only [mem_map, exists_exists_and_eq_and, Token.word.injEq, hne, false_or]
    refine exists_congr fun d => and_congr_right fun hd => ?_
    obtain ⟨t, ht⟩ := hitems d hd
    exact hasBareIn_declarator ht

end Init

lemma renders_forStatement {n : Node} {ps : List Part} {cs : List Char}
    (hk : n.kind = .str Kind.forStatement.name) (hps : forHead (n.get "init") = .ok ps)
    (h : Renders [.tree n.toTree] cs) :
    ∃ head rest, cs = "for (".toList ++ head ++ ';' :: rest ∧ Renders ps head := by
  obtain ⟨qs, he, hr⟩ := renders_expandKind hk h
  rw [expandKind, forStatement, hps] at he
  obtain ⟨_, h, he⟩ := except_bind_eq_ok.1 he
  obtain rfl := Except.ok.inj h
  obtain ⟨body, -, he⟩ := except_bind_eq_ok.1 he
  obtain rfl := Except.ok.inj he
  simp only [cons_append, append_assoc] at hr
  obtain ⟨bs, rfl, hbs⟩ := hr.of_text
  obtain ⟨head, ds, rfl, hhead, hds⟩ := hbs.exists_of_append
  obtain ⟨rest, rfl, -⟩ := hds.of_text
  exact ⟨head, ' ' :: rest, by simp, hhead⟩

/-- Up to the first semicolon of the head an `in` stands outside of all brackets exactly if the
initialiser exposes one: nothing but binding strength puts it in parentheses. -/
theorem for_head_bare_in_iff {n : Node} {init : Init} {text : String}
    (hk : n.kind = .str Kind.forStatement.name) (hi : init.Shows (n.get "init"))
    (hp : print n.toTree = .ok text) :
    ∃ head rest ts, text.toList = "for (".toList ++ head ++ ';' :: rest ∧ lex head = some ts ∧
      .mark ";" ∉ ts ∧ (HasBareIn ts ↔ init.exposesIn = true) := by
  obtain ⟨cs, hr, ht⟩ := renders_of_run hp
  obtain ⟨ps, hps, hprints⟩ := init.prints_forHead hi
  obtain ⟨head, rest, rfl, hhead⟩ := renders_forStatement hk hps hr
  obtain rfl := hhead.unique hprints
  exact ⟨_, rest, _, by simpa using ht, Init.lex_pieces hi,
    not_mem_of_balanced (Init.balanced_pieces fair_semicolons hi), Init.hasBareIn_pieces hi⟩

def loopFrom (init : Tree) : Node :=
  ⟨0, .str "ForStatement", [("init", init), ("body", .node 0 (.str "EmptyStatement") [])]⟩

def membership : Expr := .binary .isIn (.ident "a") (.ident "b")

def membershipTree : Tree :=
  .node 0 (.str "BinaryExpression")
    [("operator", .str "in"), ("left", named "a"), ("right", named "b")]

lemma shows_named {s : String} (h : isIdentifier s = true) : Shows (.ident s) (named s) := by
  rw [Shows]
  exact ⟨⟨_, _, _⟩, rfl, rfl, ⟨_, rfl, rfl⟩, h⟩

lemma shows_membership : Shows membership membershipTree := by
  rw [membership, Shows]
  exact ⟨⟨_, _, _⟩, rfl, rfl, ⟨_, rfl, rfl⟩, ⟨_, rfl, shows_named (by decide)⟩, _, rfl,
    shows_named (by decide)⟩

def twoMemberships : Init :=
  .declaration "var" [("x", some (.call (.ident "f") [membership])),
    ("y", some (.conditional (.ident "c") membership (.ident "d")))]

def twoMembershipsTree : Tree :=
  .node 0 (.str "VariableDeclaration") [("kind", .str "var"), ("declarations", .list
    [.node 0 (.str "VariableDeclarator") [("id", named "x"), ("init",
       .node 0 (.str "CallExpression") [("callee", named "f"),
         ("arguments", .list [membershipTree])])],
     .node 0 (.str "VariableDeclarator") [("id", named "y"), ("init",
       .node 0 (.str "ConditionalExpression") [("test", named "c"),
         ("consequent", membershipTree), ("alternate", named "d")])]])]

lemma shows_twoMemberships : twoMemberships.Shows twoMembershipsTree := by
  have hcall : Shows (.call (.ident "f") [membership]) (.node 0 (.str "CallExpression")
      [("callee", named "f"), ("arguments", .list [membershipTree])]) := by
    rw [Shows]
    exact ⟨⟨_, _, _⟩, rfl, rfl, ⟨_, rfl, shows_named (by decide)⟩, rfl,
      ⟨_, rfl, _, rfl, ⟨_, _, rfl, shows_membership, rfl⟩⟩⟩
  have hchoice : Shows (.conditional (.ident "c") membership (.ident "d"))
      (.node 0 (.str "ConditionalExpression") [("test", named "c"),
        ("consequent", membershipTree), ("alternate", named "d")]) := by
    rw [Shows]
    exact ⟨⟨_, _, _⟩, rfl, rfl, ⟨_, rfl, shows_named (by decide)⟩, ⟨_, rfl, shows_membership⟩, _, rfl,
      shows_named (by decide)⟩
  exact ⟨⟨_, _, _⟩, rfl, rfl, ⟨_, rfl, rfl⟩, by decide, _, rfl, _, rfl,
    .cons ⟨⟨_, _, _⟩, rfl, rfl, ⟨_, rfl, shows_named (by decide)⟩, _, rfl, hcall⟩
      (.cons ⟨⟨_, _, _⟩, rfl, rfl, ⟨_, rfl, shows_named (by decide)⟩, _, rfl, hchoice⟩ .nil)⟩

theorem for_head_bare_in_iff_two_memberships :
    twoMemberships.Shows twoMembershipsTree ∧ twoMemberships.exposesIn = true ∧
      print (loopFrom twoMembershipsTree).toTree =
        .ok "for (var x = f(a in b), y = c ? a in b : d; ; ) ;" ∧
      ∃ head rest ts, "for (var x = f(a in b), y = c ? a in b : d; ; ) ;".toList =
          "for (".toList ++ head ++ ';' :: rest ∧ lex head = some ts ∧ .mark ";" ∉ ts ∧
        (HasBareIn ts ↔ twoMemberships.exposesIn = true) :=
  ⟨shows_twoMemberships, by decide, rfl,
    for_head_bare_in_iff (n := loopFrom twoMembershipsTree) rfl shows_twoMemberships rfl⟩

theorem for_head_of_membership_is_bare :
    Shows membership membershipTree ∧
      print (loopFrom membershipTree).toTree = .ok "for (a in b; ; ) ;" ∧
      lex "a in b".toList = some [.word "a", .word "in", .word "b"] ∧
      HasBareIn [.word "a", .word "in", .word "b"] := by
  refine ⟨shows_membership, rfl, ?_, [.word "a"], [.word "b"], rfl, by simp [Pointless], by decide⟩
  exact lex_pieces shows_membership

end Overload.Syntax
