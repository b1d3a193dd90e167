import Overload.Proofs.Syntax.Parser
import Overload.Proofs.Syntax.Spacing

/-! What is written for an expression is read back as this expression and as no other. -/

namespace Overload.Syntax

open Level Overload.Syntax.Expr

variable {e : Expr} {ps : List Piece}

def Level.all : List Level :=
  [.expression, .assignment, .conditional, .shortCircuit, .coalesce, .logicalOr, .logicalAnd,
   .bitOr, .bitXor, .bitAnd, .equality, .relational, .shift, .additive, .multiplicative,
   .exponentiation, .unary, .update, .leftHandSide, .primary]

lemma Level.mem_all (l : Level) : l ∈ all := by
  cases l <;> decide

def climbs : Nat → Level → Level → Bool
  | 0, l, m => l == m
  | k + 1, l, m => l == m || m.units.any (climbs k l)

lemma Reads.climb {k : Nat} {l m : Level} {ts : List Token} (h : Reads l ts e)
    (hc : climbs k l m = true) : Reads m ts e := by
  induction k generalizing m with
  | zero =>
    obtain rfl : l = m := by simpa [climbs] using hc
    exact h
  | succ k ih =>
    simp only [climbs, Bool.or_eq_true, beq_iff_eq, List.any_eq_true] at hc
    rcases hc with rfl | ⟨n, hn, hc⟩
    · exact h
    · exact .unit hn (ih hc)

lemma climbs_of_rank {l m : Level} (h : m.rank ≤ l.rank) (hl : l ≠ .shortCircuit)
    (hm : m = .coalesce → l = .coalesce ∨ 8 ≤ l.rank) : climbs 20 l m = true := by
  have hall : ∀ l ∈ all, ∀ m ∈ all, m.rank ≤ l.rank → l ≠ .shortCircuit →
      (m = .coalesce → l = .coalesce ∨ 8 ≤ l.rank) → climbs 20 l m = true := by decide +kernel
  exact hall l l.mem_all m m.mem_all h hl hm

lemma level_ne_shortCircuit (e : Expr) : e.level ≠ .shortCircuit := by
  cases e with
  | binary op l r => cases op <;> simp [level, levelOf]
  | update op b e => cases b <;> simp [level]
  | _ => simp [level]

lemma reads_enclosed (h : Reads e.level (tokens ps) e) :
    Reads .primary (tokens (enclosed ps)) e := by
  have := Reads.group (h.climb (climbs_of_rank (m := .expression) (one_le_rank _)
    (level_ne_shortCircuit e) (by simp)))
  simpa [enclosed] using this

lemma reads_atLeast {m : Level} {least : Nat} (h : Reads e.level (tokens ps) e)
    (hm : least ≤ e.level.rank → m.rank ≤ e.level.rank)
    (hc : m = .coalesce → least ≤ e.level.rank → e.level = .coalesce ∨ 8 ≤ e.level.rank) :
    Reads m (tokens (atLeast least e ps)) e := by
  rw [atLeast]
  split
  · refine (reads_enclosed h).climb (climbs_of_rank ?_ (by decide) fun _ => .inr (by decide))
    cases m <;> decide
  · rename_i hl
    exact h.climb (climbs_of_rank (hm (by omega)) (level_ne_shortCircuit e)
      fun hm => hc hm (by omega))

lemma reads_operand {m : Level} (h : Reads e.level (tokens ps) e) (hm : m ≠ .coalesce) :
    Reads m (tokens (atLeast m.rank e ps)) e :=
  reads_atLeast h id fun he => absurd he hm

lemma reads_object (h : Reads e.level (tokens ps) e) :
    Reads .leftHandSide (tokens (object e ps)) e := by
  rw [object]
  split
  · exact .unit (by decide) (reads_enclosed h)
  · exact reads_operand h (m := .leftHandSide) (by decide)

lemma rank_of_not_mixes (hm : mixes .nullish e = false) (h : 5 ≤ e.level.rank) :
    e.level = .coalesce ∨ 8 ≤ e.level.rank := by
  cases e with
  | binary op l r =>
    revert hm h
    cases op <;> simp [mixes, isLogical, level, levelOf, rank]
  | update op b e => cases b <;> simp [level, rank]
  | _ =>
    revert h
    simp [level, rank]

lemma leftLeast_pow (e : Expr) : leftLeast .pow e = 18 := by
  cases e <;> rfl

lemma rightLeast_pow (e : Expr) : rightLeast .pow e = 16 := by
  cases e <;> rfl

lemma reads_left {op : BinaryOp} (h : Reads e.level (tokens ps) e) (hop : op ≠ .pow) :
    Reads (levelOf op) (tokens (atLeast (leftLeast op e) e ps)) e := by
  have hrank : (levelOf op).rank ≤ 21 := by cases op <;> decide
  rw [leftLeast, if_neg hop]
  split
  · exact reads_atLeast h (by omega) fun _ hl => .inr (by omega)
  · rename_i hm
    refine reads_atLeast h id fun hc hl => rank_of_not_mixes ?_ ?_
    · cases op <;> simp [levelOf] at hc
      simpa using hm
    · rwa [hc] at hl

lemma reads_right {op : BinaryOp} {m : Level} (h : Reads e.level (tokens ps) e)
    (hop : (levelOf op).operand? = some m) :
    Reads m (tokens (atLeast (rightLeast op e) e ps)) e := by
  have hpow : op ≠ .pow := by
    rintro rfl
    simp [levelOf, operand?] at hop
  have hm : m ≠ .coalesce ∧ m.rank ≤ 21 ∧
      (m.rank = (levelOf op).rank + 1 ∨ op = .nullish ∧ m.rank = 8) := by
    revert hop
    cases op <;> cases m <;> decide
  rw [rightLeast, if_neg hpow]
  split
  · exact reads_atLeast h (by omega) fun _ hl => .inr (by omega)
  · rename_i hmix
    refine reads_atLeast h (fun hl => ?_) fun hc => absurd hc hm.1
    rcases hm.2.2 with hr | ⟨rfl, hr⟩
    · omega
    · have hl : 6 ≤ e.level.rank := hl
      rcases rank_of_not_mixes (by simpa using hmix) (by omega : 5 ≤ e.level.rank) with hc | hc
      · rw [hc, rank] at hl
        omega
      · omega

lemma exists_of_showsAll {es : List Expr} {ts : List Tree} (h : ShowsAll es ts) :
    ∀ e ∈ es, ∃ t, Shows e t := by
  induction es generalizing ts with
  | nil => simp
  | cons e es ih =>
    obtain ⟨t, rest, rfl, ht, hrest⟩ := h
    intro d hd
    rcases List.mem_cons.1 hd with rfl | hd
    · exact ⟨t, ht⟩
    · exact ih hrest d hd

def withTokens (es : List Expr) : List (List Token × Expr) :=
  es.map fun e => (tokens (atLeast 3 e (pieces e)), e)

lemma map_tokens_listed (es : List Expr) :
    (listed es).map tokens = (withTokens es).map (·.1) := by
  induction es with
  | nil => rfl
  | cons e es ih => simpa [listed, withTokens] using ih

lemma map_snd_withTokens (es : List Expr) : (withTokens es).map (·.2) = es := by
  simp [withTokens, Function.comp_def]

lemma reads_listed {es : List Expr} {ts : List Tree} (hs : ShowsAll es ts)
    (ih : ∀ e ∈ es, ∀ t, Shows e t → Reads e.level (tokens (pieces e)) e) :
    ∀ a ∈ withTokens es, Reads .assignment a.1 a.2 := by
  intro a ha
  obtain ⟨e, he, rfl⟩ := List.mem_map.1 ha
  obtain ⟨t, ht⟩ := exists_of_showsAll hs e he
  exact reads_operand (ih e he t ht) (m := .assignment) (by decide)

theorem reads_pieces (e : Expr) : ∀ t, Shows e t → Reads e.level (tokens (pieces e)) e := by
  induction e using induction with
  | ident s =>
    intro t h
    rw [Shows] at h
    obtain ⟨n, -, -, -, hs⟩ := h
    exact .ident hs
  | number n => exact fun _ _ => .number
  | text s => exact fun _ _ => .text
  | bool b => exact fun _ _ => .bool
  | null => exact fun _ _ => .null
  | unary op e ih =>
    intro t h
    rw [Shows] at h
    obtain ⟨n, -, -, -, a, -, ha⟩ := h
    have := @Reads.unary op _ _ (reads_operand (ih a ha) (m := .unary) (by decide))
    rw [pieces]
    split <;> simpa [level, rank] using this
  | update op isBefore e ih =>
    intro t h
    rw [Shows] at h
    obtain ⟨n, -, -, -, -, ⟨a, -, ha⟩, he⟩ := h
    cases isBefore with
    | true =>
      have := @Reads.prefixed op _ _ (reads_operand (ih a ha) (m := .unary) (by decide)) he
      simpa [pieces, level, rank] using Reads.unit (l := .unary) (by decide) this
    | false =>
      have := @Reads.postfixed op _ _
        (reads_operand (ih a ha) (m := .leftHandSide) (by decide)) he
      simpa [pieces, level, rank] using this
  | binary op l r ihl ihr =>
    intro t h
    rw [Shows] at h
    obtain ⟨n, -, -, -, ⟨a, -, ha⟩, ⟨b, -, hb⟩⟩ := h
    by_cases hop : op = .pow
    · subst hop
      have := Reads.power (reads_operand (ihl a ha) (m := .update) (by decide))
        (reads_operand (ihr b hb) (m := .exponentiation) (by decide))
      rw [pieces, leftLeast_pow, rightLeast_pow]
      simpa [level, levelOf, rank] using this
    · obtain ⟨m, hm⟩ : ∃ m, (levelOf op).operand? = some m := by
        cases op <;> first | exact absurd rfl hop | exact ⟨_, rfl⟩
      have := Reads.binary hm (reads_left (ihl a ha) hop) (reads_right (ihr b hb) hm)
      simpa [pieces, level, rank] using this
  | conditional c a b ihc iha ihb =>
    intro t h
    rw [Shows] at h
    obtain ⟨n, -, -, ⟨x, -, hc⟩, ⟨y, -, ha⟩, ⟨z, -, hb⟩⟩ := h
    have := Reads.conditional (reads_operand (ihc x hc) (m := .shortCircuit) (by decide))
      (reads_operand (iha y ha) (m := .assignment) (by decide))
      (reads_operand (ihb z hb) (m := .assignment) (by decide))
    simpa [pieces, level, rank] using this
  | assign op e v ihe ihv =>
    intro t h
    rw [Shows] at h
    obtain ⟨n, -, -, -, hop, ⟨a, -, ha⟩, he, ⟨b, -, hb⟩⟩ := h
    have hlhs : Reads .leftHandSide (tokens (pieces e)) e := by
      refine (ihe a ha).climb (climbs_of_rank ?_ (level_ne_shortCircuit e) (by simp))
      cases e <;> simp [isTarget] at he <;> simp [level, rank]
    have := Reads.assign hop hlhs he (reads_operand (ihv b hb) (m := .assignment) (by decide))
    simpa [pieces, level, rank] using this
  | sequence es ih =>
    intro t h
    rw [Shows] at h
    obtain ⟨n, -, -, ⟨c, -, ts, rfl, hs⟩, hl⟩ := h
    have := Reads.sequence (reads_listed hs ih) (by simpa [withTokens] using hl)
    rw [pieces, tokens_separated, map_tokens_listed]
    rwa [map_snd_withTokens] at this
  | await e ih =>
    intro t h
    rw [Shows] at h
    obtain ⟨n, -, -, a, -, ha⟩ := h
    have := Reads.await (reads_operand (ih a ha) (m := .unary) (by decide))
    simpa [pieces, level, rank] using this
  | pause => exact fun _ _ => .pause
  | yield e ih =>
    intro t h
    rw [Shows] at h
    obtain ⟨n, -, -, ⟨a, -, ha⟩, -⟩ := h
    have := Reads.yield (reads_operand (ih a ha) (m := .assignment) (by decide))
    simpa [pieces, level, rank] using this
  | delegate e ih =>
    intro t h
    rw [Shows] at h
    obtain ⟨n, -, -, ⟨a, -, ha⟩, -⟩ := h
    have := Reads.delegate (reads_operand (ih a ha) (m := .assignment) (by decide))
    simpa [pieces, level, rank] using this
  | member e s ih =>
    intro t h
    rw [Shows] at h
    obtain ⟨n, -, -, ⟨a, -, ha⟩, -, -, hs, -⟩ := h
    simpa [pieces, level, rank] using Reads.member (reads_object (ih a ha)) hs
  | index e p ih ihp =>
    intro t h
    rw [Shows] at h
    obtain ⟨n, -, -, ⟨a, -, ha⟩, -, -, ⟨b, -, hb⟩⟩ := h
    have hp := (ihp b hb).climb (climbs_of_rank (m := .expression) (one_le_rank _)
      (level_ne_shortCircuit p) (by simp))
    simpa [pieces, level, rank] using Reads.index (reads_object (ih a ha)) hp
  | call e es ih ihs =>
    intro t h
    rw [Shows] at h
    obtain ⟨n, -, -, ⟨a, -, ha⟩, -, ⟨c, -, ts, rfl, hs⟩⟩ := h
    have := @Reads.call _ _ _ [] (reads_object (ih a ha)) (reads_listed hs ihs) (.inl rfl)
    rw [map_snd_withTokens] at this
    simpa [pieces, level, tokens_separated, map_tokens_listed] using this

lemma lex_pieces {t : Tree} (h : Shows e t) :
    lex (chars (pieces e)) = some (tokens (pieces e)) :=
  lex_chars (Followed.spaced (spacing_pieces e t h))

end Overload.Syntax
