import Overload.Proofs.Syntax.Grammar

/-! Heights in a token list: opening tokens go up, closing tokens go down. -/

namespace Overload.Syntax

open List

def height (w : Token → Int) : List Token → Int
  | [] => 0
  | t :: ts => w t + height w ts

@[simp] lemma height_nil (w : Token → Int) : height w [] = 0 := rfl

@[simp] lemma height_cons (w : Token → Int) (t : Token) (ts : List Token) :
    height w (t :: ts) = w t + height w ts := rfl

@[simp] lemma height_append (w : Token → Int) (ts us : List Token) :
    height w (ts ++ us) = height w ts + height w us := by
  induction ts with
  | nil => simp
  | cons t ts ih => simp [ih, Int.add_assoc]

structure Balanced (w : Token → Int) (ts : List Token) : Prop where
  total : height w ts = 0
  nonneg : ∀ us vs, ts = us ++ vs → 0 ≤ height w us

namespace Balanced

variable {w : Token → Int} {ts us : List Token} {t u : Token}

lemma nil : Balanced w [] := by
  refine ⟨rfl, fun us vs h => ?_⟩
  obtain ⟨rfl, -⟩ := append_eq_nil_iff.1 h.symm
  exact Int.le_refl 0

lemma append (h : Balanced w ts) (h' : Balanced w us) : Balanced w (ts ++ us) := by
  refine ⟨by simp [h.total, h'.total], fun xs ys he => ?_⟩
  rcases append_eq_append_iff.1 he with ⟨as, rfl, rfl⟩ | ⟨bs, rfl, rfl⟩
  · simpa [h.total] using h'.nonneg as ys rfl
  · exact h.nonneg xs bs rfl

lemma enclose (h : Balanced w ts) (ht : w u = -w t ∧ 0 ≤ w t) : Balanced w (t :: ts ++ [u]) := by
  have htotal : height w (t :: ts ++ [u]) = 0 := by
    simp only [height_append, height_cons, height_nil, h.total]
    omega
  refine ⟨htotal, fun xs ys he => ?_⟩
  rcases append_eq_append_iff.1 he with ⟨as, rfl, ha⟩ | ⟨bs, hb, rfl⟩
  · rcases append_eq_singleton_iff.1 ha.symm with ⟨rfl, rfl⟩ | ⟨rfl, rfl⟩
    · simpa [h.total] using ht.2
    · omega
  · cases xs with
    | nil => exact Int.le_refl 0
    | cons x xs =>
      obtain ⟨rfl, hts⟩ := List.cons.inj hb
      have := h.nonneg xs bs hts
      rw [height_cons]
      omega

lemma single (ht : w t = 0) : Balanced w [t] := by
  refine ⟨by simp [ht], fun xs ys he => ?_⟩
  rcases append_eq_singleton_iff.1 he.symm with ⟨rfl, -⟩ | ⟨rfl, -⟩ <;> simp [ht]

lemma cons (ht : w t = 0) (h : Balanced w ts) : Balanced w (t :: ts) := (single ht).append h

lemma not_below {rest : List Token} (h : Balanced w ts) (h' : Balanced w (ts ++ t :: rest))
    (ht : w t < 0) : False := by
  have := h'.nonneg (ts ++ [t]) rest (by simp)
  simp only [height_append, height_cons, height_nil, h.total] at this
  omega

lemma ends_alike {rest rest' : List Token} (h : Balanced w ts) (h' : Balanced w us) (ht : w t < 0)
    (hu : w u < 0) (he : ts ++ t :: rest = us ++ u :: rest') : ts = us ∧ t = u ∧ rest = rest' := by
  rcases append_eq_append_iff.1 he with ⟨as, rfl, ha⟩ | ⟨bs, rfl, hb⟩
  · cases as with
    | nil => simpa using ha
    | cons a as =>
      obtain ⟨rfl, -⟩ := List.cons.inj ha
      exact (h.not_below h' ht).elim
  · cases bs with
    | nil => simpa [eq_comm] using hb
    | cons b bs =>
      obtain ⟨rfl, -⟩ := List.cons.inj hb
      exact (h'.not_below h hu).elim

end Balanced

def structural : List String := ["(", ")", "[", "]", "\x7b", "\x7d", "?", ":", ";"]

def Token.isPlain : Token → Bool
  | .mark m => !structural.contains m
  | _ => true

structure Fair (w : Token → Int) : Prop where
  paren : w (.mark ")") = -w (.mark "(") ∧ 0 ≤ w (.mark "(")
  bracket : w (.mark "]") = -w (.mark "[") ∧ 0 ≤ w (.mark "[")
  choice : w (.mark ":") = -w (.mark "?") ∧ 0 ≤ w (.mark "?")
  plain : ∀ t, t.isPlain = true → w t = 0

lemma isPlain_unary (op : PrefixOp) : (symbol op.token).isPlain = true := by
  cases op <;> decide

lemma isPlain_update (op : UpdateOp) : (symbol op.token).isPlain = true := by
  cases op <;> decide

lemma isPlain_binary (op : BinaryOp) : (symbol op.token).isPlain = true := by
  cases op <;> decide

lemma isPlain_assign {op : Option BinaryOp} (h : op.all isAssignable = true) :
    (symbol (assignToken op)).isPlain = true := by
  cases op with
  | none => decide
  | some op =>
    revert h
    cases op <;> decide

namespace Fair

variable {w : Token → Int}

lemma single (hw : Fair w) {t : Token} (ht : t.isPlain = true) : Balanced w [t] :=
  .single (hw.plain t ht)

lemma cons (hw : Fair w) {t : Token} {ts : List Token} (ht : t.isPlain = true)
    (h : Balanced w ts) : Balanced w (t :: ts) :=
  h.cons (hw.plain t ht)

lemma commas (hw : Fair w) {parts : List (List Token)} (h : ∀ p ∈ parts, Balanced w p) :
    Balanced w (commas parts) := by
  induction parts with
  | nil => exact .nil
  | cons p parts ih =>
    rw [forall_mem_cons] at h
    have hrest := ih h.2
    cases parts with
    | nil => simpa [Syntax.commas, intercalate] using h.1
    | cons q parts =>
      have := h.1.append (hw.cons (t := .mark ",") (by decide) hrest)
      simpa [Syntax.commas, intercalate] using this

end Fair

theorem Reads.balanced {w : Token → Int} (hw : Fair w) {l : Level} {ts : List Token} {e : Expr}
    (h : Reads l ts e) : Balanced w ts := by
  induction h with
  | unit _ _ ih => exact ih
  | ident | number | text | bool | null | pause => exact hw.single rfl
  | group _ ih => exact ih.enclose hw.paren
  | member _ _ ih => exact ih.append (hw.cons (by decide) (hw.single rfl))
  | index _ _ ih ihp =>
    rw [append_assoc]
    exact ih.append (ihp.enclose hw.bracket)
  | @call ts e arguments comma _ _ hc ih iha =>
    have hcomma : Balanced w comma := by
      rcases hc with rfl | ⟨rfl, -⟩
      · exact .nil
      · exact hw.single (by decide)
    have hargs : Balanced w (commas (arguments.map (·.1))) := by
      refine hw.commas fun p hp => ?_
      obtain ⟨a, ha, rfl⟩ := mem_map.1 hp
      exact iha a ha
    have := ih.append ((hargs.append hcomma).enclose hw.paren)
    simpa using this
  | @postfixed op _ _ _ _ ih => exact ih.append (hw.single (isPlain_update op))
  | @prefixed op _ _ _ _ ih => exact hw.cons (isPlain_update op) ih
  | @unary op _ _ _ ih => exact hw.cons (isPlain_unary op) ih
  | await _ ih | yield _ ih => exact hw.cons rfl ih
  | power _ _ ih ih' => exact ih.append (hw.cons (isPlain_binary .pow) ih')
  | @binary op _ _ _ _ _ _ _ _ ih ih' => exact ih.append (hw.cons (isPlain_binary op) ih')
  | conditional _ _ _ ihc iha ihb =>
    have := ihc.append ((iha.enclose hw.choice).append ihb)
    simpa using this
  | assign hop _ _ _ ih ih' => exact ih.append (hw.cons (isPlain_assign hop) ih')
  | delegate _ ih => exact hw.cons rfl (hw.cons (by decide) ih)
  | @sequence items _ _ ih =>
    refine hw.commas fun p hp => ?_
    obtain ⟨a, ha, rfl⟩ := mem_map.1 hp
    exact ih a ha

def Pointless (ts : List Token) : Prop := ts.getLast? ≠ some (.mark ".")

lemma Pointless.append_cons {us : List Token} {t : Token} (hu : Pointless us) (ts : List Token)
    (ht : t ≠ .mark ".") : Pointless (ts ++ t :: us) := by
  rw [Pointless, getLast?_append, getLast?_cons]
  cases h : us.getLast? with
  | none => simpa using ht
  | some u => simpa [Pointless, h] using hu

lemma pointless_end (ts : List Token) {t : Token} (ht : t ≠ .mark ".") : Pointless (ts ++ [t]) := by
  simpa [Pointless] using ht

lemma pointless_commas {parts : List (List Token)} (h : ∀ p ∈ parts, Pointless p) :
    Pointless (commas parts) := by
  induction parts with
  | nil => simp [Pointless, commas, intercalate]
  | cons p parts ih =>
    rw [forall_mem_cons] at h
    cases parts with
    | nil => simpa [commas, intercalate] using h.1
    | cons q parts =>
      have := (ih h.2).append_cons p (t := .mark ",") (by decide)
      simpa [commas, intercalate] using this

lemma Reads.pointless {l : Level} {ts : List Token} {e : Expr} (h : Reads l ts e) :
    Pointless ts := by
  induction h with
  | unit _ _ ih => exact ih
  | ident | number | text | bool | null | pause => exact pointless_end [] (by simp)
  | group | index | call => exact pointless_end _ (by decide)
  | member => simp [Pointless, getLast?_append]
  | @postfixed op => exact pointless_end _ (by cases op <;> decide)
  | @prefixed op _ _ _ _ ih | @unary op _ _ _ ih => exact ih.append_cons [] (by cases op <;> decide)
  | await _ ih | yield _ ih => exact ih.append_cons [] (by simp)
  | power _ _ _ ih => exact ih.append_cons _ (by decide)
  | @binary op _ _ _ _ _ _ _ _ _ ih => exact ih.append_cons _ (by cases op <;> decide)
  | conditional _ _ _ _ _ ih => exact ih.append_cons _ (by decide)
  | @assign op _ _ _ _ hop _ _ _ _ ih =>
    refine ih.append_cons _ ?_
    cases op with
    | none => decide
    | some op => cases op <;> decide
  | delegate _ ih => exact ih.append_cons [_] (by decide)
  | @sequence items _ _ ih =>
    refine pointless_commas fun p hp => ?_
    obtain ⟨a, ha, rfl⟩ := mem_map.1 hp
    exact ih a ha

end Overload.Syntax
