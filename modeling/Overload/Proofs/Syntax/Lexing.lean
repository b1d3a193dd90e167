import Mathlib.Data.List.Basic
import Overload.Proofs.Syntax.Token

/-! Texts made of tokens and gaps: the lexer gives back the tokens where no neighbours merge. -/

namespace Overload.Syntax

open Nat Source Text List Token String

variable {rest : List Char} {c : Char}

namespace Token

def chars : Token → List Char
  | .word s => s.toList
  | .number n => toDigits 10 n
  | .text s => '"' :: escapeChars s.toList ++ ['"']
  | .mark s => s.toList

@[simp] lemma chars_word (s : String) : (word s).chars = s.toList := rfl

@[simp] lemma chars_mark (s : String) : (mark s).chars = s.toList := rfl

@[simp] lemma chars_number (n : Nat) : (number n).chars = toDigits 10 n := rfl

def fits : Token → Bool
  | .word s => isName s
  | .mark s => marks.contains s
  | _ => true

def follow (m : String) : List Char :=
  marks.filterMap (fun q => if m.toList.isPrefixOf q.toList then q.toList[m.length]? else none) ++
    if m = "/" then ['/', '*'] else []

def mayFollow : Token → Char → Bool
  | .word _, c => !isNamePart c
  | .number _, c => !(c.isDigit || c == '.' || c == '\\' || isNameStart c)
  | .text _, _ => true
  | .mark m, c => !(follow m).contains c

def Apart (t : Token) (rest : List Char) : Prop := ∀ c ∈ rest.head?, t.mayFollow c = true

end Token

lemma isBlank_of_isNameStart (h : isNameStart c = true) : isBlank c = false := by
  have hb : ∀ n ∈ blanks, isNameStart (Char.ofNat n) = false := by decide +kernel
  by_contra hc
  simp only [isBlank, Bool.not_eq_false, contains_iff_mem] at hc
  have := hb _ hc
  simp [h] at this

-- Decided along the list: an instance for all characters would try each of them.
lemma forall_of_all {cs : List Char} {p : Char → Prop} [DecidablePred p]
    (h : cs.all (fun c => decide (p c)) = true) : ∀ c ∈ cs, p c := by
  simpa using h

lemma mem_digits_of_isDigit (h : c.isDigit = true) : c ∈ "0123456789".toList := by
  have hc : 48 ≤ c.toNat ∧ c.toNat ≤ 57 := by
    simpa [Char.isDigit, UInt32.le_iff_toNat_le] using h
  have hd : ∀ n < 58, 48 ≤ n → Char.ofNat n ∈ "0123456789".toList := by decide +kernel
  simpa using hd c.toNat (by omega) hc.1

lemma isBlank_of_isDigit (h : c.isDigit = true) : isBlank c = false := by
  have hd : ∀ c ∈ "0123456789".toList, isBlank c = false :=
    forall_of_all (by decide +kernel)
  exact hd c (mem_digits_of_isDigit h)

lemma isNameStart_of_isDigit (h : c.isDigit = true) : isNameStart c = false := by
  have hd : ∀ c ∈ "0123456789".toList, isNameStart c = false :=
    forall_of_all (by decide +kernel)
  exact hd c (mem_digits_of_isDigit h)

lemma takeWhile_append_of_head {p : Char → Bool} {cs : List Char} (hcs : cs.all p = true)
    (hr : ∀ c ∈ rest.head?, p c = false) :
    (cs ++ rest).takeWhile p = cs ∧ (cs ++ rest).dropWhile p = rest := by
  induction cs with
  | nil =>
    cases rest with
    | nil => simp
    | cons c rest => simp [hr c (by simp)]
  | cons c cs ih =>
    simp only [all_cons, Bool.and_eq_true] at hcs
    simp [hcs.1, ih hcs.2]

lemma scan_word {s : String} (hs : isName s = true) (hr : (word s).Apart rest) :
    scan (s.toList ++ rest) = some (.word s, rest) := by
  unfold isName at hs
  split at hs
  · simp at hs
  · rename_i c cs he
    obtain ⟨hc, hcs⟩ := (Bool.and_eq_true _ _).mp hs
    obtain ⟨htake, hdrop⟩ := takeWhile_append_of_head hcs
      (fun d hd => by simpa [mayFollow] using hr d hd)
    rw [he, cons_append, scan, if_pos hc, htake, hdrop, ← he, ofList_toList]

lemma head_toDigits {n : Nat} (hn : 0 < n) : (toDigits 10 n).head? ≠ some '0' := by
  induction n using Nat.strongRecOn with
  | ind n ih =>
    by_cases h : n < 10
    · have hd : ∀ n < 10, 0 < n → n.digitChar ≠ '0' := by decide
      simpa [toDigits_of_lt_base h] using hd n h hn
    · rw [toDigits_of_base_le (by omega) (by omega)]
      have := ih (n / 10) (by omega) (by omega)
      rwa [head?_append_of_ne_nil _ toDigits_ne_nil]

lemma scan_number {n : Nat} (hr : (number n).Apart rest) :
    scan (toDigits 10 n ++ rest) = some (.number n, rest) := by
  have hall : (toDigits 10 n).all Char.isDigit = true := by
    rw [all_eq_true]
    exact fun c hc => isDigit_of_mem_toDigits (by omega) (by omega) hc
  have hfollow : ∀ c ∈ rest.head?, c.isDigit = false ∧
      (c == '.' || c == '\\' || isNameStart c) = false := by
    intro c hc
    have := hr c hc
    simp only [mayFollow, Bool.not_eq_true', Bool.or_eq_false_iff] at this ⊢
    tauto
  obtain ⟨htake, hdrop⟩ := takeWhile_append_of_head hall fun c hc => (hfollow c hc).1
  have hzero : ¬((toDigits 10 n).length ≠ 1 ∧ (toDigits 10 n).head? = some '0') := by
    rintro ⟨hl, hz⟩
    rcases Nat.eq_zero_or_pos n with rfl | hn
    · simp at hl
    · exact head_toDigits hn hz
  have hnext : ¬(rest.head?.any fun c => c == '.' || c == '\\' || isNameStart c) = true := by
    cases hh : rest.head? with
    | none => simp
    | some c => simpa using (hfollow c hh).2
  obtain ⟨c, cs, he⟩ := exists_cons_of_ne_nil (toDigits_ne_nil (n := n) (b := 10))
  have hc : c.isDigit = true := by
    rw [he] at hall
    simp only [all_cons, Bool.and_eq_true] at hall
    exact hall.1
  have hstart : scan (toDigits 10 n ++ rest) = scanNumber (toDigits 10 n ++ rest) := by
    rw [he, cons_append, scan, isNameStart_of_isDigit hc]
    simp [hc]
  rw [hstart, scanNumber]
  simp only [htake, hdrop]
  rw [if_neg hzero, if_neg hnext, ofDigitChars_ten_toDigits]

lemma scanText_escape {tail : List Char} (h : unescape tail = some (c, rest)) :
    scanText ('\\' :: tail) = (scanText rest).map fun r => (c :: r.1, r.2) := by
  rw [scanText, if_neg (by decide), if_neg (by decide), if_pos rfl]
  split
  · simp_all
  · simp_all

def escapes : List Char :=
  ['\\', '"', '\n', '\r', '\t', '\x08', '\x0c', '\x0b', '\x00', '\u2028', '\u2029']

lemma scanText_escapes : ∀ c ∈ escapes, ∀ rest,
    scanText (Source.escapeChar c ++ rest) = (scanText rest).map fun r => (c :: r.1, r.2) := by
  simp only [escapes, forall_mem_cons]
  refine ⟨?_, ?_, ?_, ?_, ?_, ?_, ?_, ?_, ?_, ?_, ?_, by simp⟩
  all_goals exact fun rest => scanText_escape rfl

lemma scanText_escapeChar (c : Char) (rest : List Char) :
    scanText (Source.escapeChar c ++ rest) = (scanText rest).map fun r => (c :: r.1, r.2) := by
  by_cases hc : c ∈ escapes
  · exact scanText_escapes c hc rest
  · simp only [escapes, mem_cons, not_mem_nil, or_false, not_or] at hc
    have hplain : Source.escapeChar c = [c] := by simp only [Source.escapeChar, hc, if_false]
    rw [hplain, singleton_append, scanText, if_neg hc.2.1,
      if_neg (not_or.2 ⟨hc.2.2.1, hc.2.2.2.1⟩), if_neg hc.1]

lemma scanText_escapeChars (cs rest : List Char) :
    scanText (escapeChars cs ++ '"' :: rest) = some (cs, rest) := by
  induction cs with
  | nil => simp [escapeChars, scanText]
  | cons c cs ih =>
    have he : escapeChars (c :: cs) = Source.escapeChar c ++ escapeChars cs := rfl
    rw [he, List.append_assoc, scanText_escapeChar, ih]
    rfl

lemma scan_text (s : String) (rest : List Char) :
    scan ('"' :: escapeChars s.toList ++ ['"'] ++ rest) = some (.text s, rest) := by
  have hq : isNameStart '"' = false ∧ '"'.isDigit = false := by decide
  simp only [cons_append, List.append_assoc, nil_append, scan, hq.1, hq.2]
  simp [scanText_escapeChars]

lemma find?_marks {m : String} (hm : m ∈ marks) (hr : (Token.mark m).Apart rest) :
    (marks.find? fun q => q.toList.isPrefixOf (m.toList ++ rest)) = some m := by
  have hsorted : marks.Pairwise fun a b => b.length ≤ a.length := by decide
  cases hf : marks.find? fun q => q.toList.isPrefixOf (m.toList ++ rest) with
  | none =>
    rw [find?_eq_none] at hf
    simpa using hf m hm
  | some q =>
    obtain ⟨hq, before, after, hsplit, hbefore⟩ := find?_eq_some_iff_append.1 hf
    have hq : q.toList <+: m.toList ++ rest := by simpa using hq
    have hle : m.length ≤ q.length := by
      rw [hsplit, mem_append, mem_cons] at hm
      rcases hm with hm | rfl | hm
      · have hm := hbefore m hm
        rw [ isPrefixOf_iff_prefix.2 (prefix_append _ _)] at hm
        simp at hm
      · exact Nat.le_refl _
      · rw [hsplit, pairwise_append, pairwise_cons] at hsorted
        exact hsorted.2.1.1 m hm
    have hmq : m.toList <+: q.toList :=
      prefix_of_prefix_length_le (prefix_append _ _) hq
        (by simpa [length_toList] using hle)
    obtain ⟨tail, htail⟩ := hmq
    cases tail with
    | nil => rw [toList_inj.1 (by simpa using htail : m.toList = q.toList)]
    | cons c tail =>
      -- a longer punctuator would need the next character
      have hhead : rest.head? = some c := by
        obtain ⟨more, hmore⟩ := hq
        rw [← htail, List.append_assoc, append_cancel_left_eq] at hmore
        simp [← hmore]
      have hfollow := hr c hhead
      have hqm : q ∈ marks := hsplit ▸ by simp
      have : c ∈ follow m := by
        refine mem_append_left _ (mem_filterMap.2 ⟨q, hqm, ?_⟩)
        rw [if_pos ( isPrefixOf_iff_prefix.2 ⟨_, htail⟩), ← htail, ← length_toList]
        simp
      simp [mayFollow, this] at hfollow

lemma scan_mark {m : String} (hm : m ∈ marks) (hr : (Token.mark m).Apart rest) :
    scan (m.toList ++ rest) = some (.mark m, rest) := by
  have hhead : ∀ m ∈ marks, ∀ c ∈ m.toList.head?.toList,
      isNameStart c = false ∧ c.isDigit = false ∧ c ≠ '"' := by
    have hall : marks.all (fun m => m.toList.head?.toList.all fun c =>
        decide (isNameStart c = false ∧ c.isDigit = false ∧ c ≠ '"')) = true := by decide +kernel
    exact fun m hm => forall_of_all (all_eq_true.1 hall m hm)
  have hcomment : ("//".toList.isPrefixOf (m.toList ++ rest) ||
      "/*".toList.isPrefixOf (m.toList ++ rest)) = false := by
    have hslash : ∀ m ∈ marks, m = "/" ∨ m.toList = ['/', '='] ∨ m.toList.head? ≠ some '/' := by
      decide
    have hne : ∀ m ∈ marks, m.toList ≠ [] := by decide
    rcases hslash m hm with rfl | he | he
    · cases rest with
      | nil => rfl
      | cons c rest =>
        have := hr c rfl
        simp only [mayFollow, follow, if_pos] at this
        simp_all [List.isPrefixOf]
        grind
    · simp [he, List.isPrefixOf]
    · cases hc : m.toList with
      | nil => exact absurd hc (hne m hm)
      | cons c cs =>
        have hc' : '/' ≠ c := by
          rintro rfl
          simp [hc] at he
        simp [List.isPrefixOf, hc']
  have hmark : scanMark (m.toList ++ rest) = some (.mark m, rest) := by
    rw [scanMark, hcomment, find?_marks hm hr]
    simp [← length_toList]
  cases he : m.toList with
  | nil =>
    have : ∀ m ∈ marks, m.toList ≠ [] := by decide
    exact absurd he (this m hm)
  | cons c cs =>
    obtain ⟨hs, hd, hq⟩ := hhead m hm c (by simp [he])
    rw [he] at hmark
    simpa [scan, hs, hd, hq] using hmark

lemma lex_cons {t : Token} {cs : List Char} (hc : isBlank c = false)
    (h : scan (c :: cs) = some (t, rest)) : lex (c :: cs) = (lex rest).map (t :: ·) := by
  rw [lex, hc]
  simp only [Bool.false_eq_true, if_false]
  split
  · simp_all
  · simp_all

lemma lex_token {t : Token} (ht : t.fits = true) (hr : t.Apart rest) :
    lex (t.chars ++ rest) = (lex rest).map (t :: ·) := by
  have hscan : scan (t.chars ++ rest) = some (t, rest) := by
    cases t with
    | word s => exact scan_word ht hr
    | number n => exact scan_number hr
    | text s => exact scan_text s rest
    | mark m => exact scan_mark (by simpa [fits] using ht) hr
  have hblank : ∃ c cs, t.chars = c :: cs ∧ isBlank c = false := by
    cases t with
    | word s =>
      simp only [fits, isName] at ht
      split at ht
      · simp at ht
      · rename_i c cs he
        exact ⟨c, cs, he, isBlank_of_isNameStart ((Bool.and_eq_true _ _).mp ht).1⟩
    | number n =>
      obtain ⟨c, cs, he⟩ := exists_cons_of_ne_nil (toDigits_ne_nil (n := n) (b := 10))
      have hc : c ∈ toDigits 10 n := he ▸ mem_cons_self
      exact ⟨c, cs, he, isBlank_of_isDigit (isDigit_of_mem_toDigits (by omega) (by omega) hc)⟩
    | text s => exact ⟨_, _, rfl, by decide⟩
    | mark m =>
      have hm : m ∈ marks := by simpa [fits] using ht
      have hb : ∀ m ∈ marks, ∃ c cs, m.toList = c :: cs ∧ isBlank c = false := by
        intro m hm
        have hall : ∀ m ∈ marks, (m.toList.head?.any fun c => !Text.isBlank c) = true := by decide
        have := hall m hm
        cases he : m.toList with
        | nil => simp [he] at this
        | cons c cs => exact ⟨c, cs, rfl, by simpa [he] using this⟩
      exact hb m hm
  obtain ⟨c, cs, he, hc⟩ := hblank
  rw [he, cons_append] at hscan ⊢
  exact lex_cons hc hscan

inductive Piece where
  | token (t : Token)
  | gap

namespace Piece

def chars : Piece → List Char
  | .token t => t.chars
  | .gap => [' ']

@[simp] lemma chars_token (t : Token) : (token t).chars = t.chars := rfl

@[simp] lemma chars_gap : gap.chars = [' '] := rfl

def token? : Piece → Option Token
  | .token t => some t
  | .gap => none

end Piece

def chars (ps : List Piece) : List Char := ps.flatMap Piece.chars

def tokens (ps : List Piece) : List Token := ps.filterMap Piece.token?

@[simp] lemma chars_nil : chars [] = [] := rfl

@[simp] lemma chars_cons (p : Piece) (ps : List Piece) : chars (p :: ps) = p.chars ++ chars ps := rfl

@[simp] lemma chars_append (ps qs : List Piece) : chars (ps ++ qs) = chars ps ++ chars qs := by
  simp [chars]

@[simp] lemma tokens_nil : tokens [] = [] := rfl

@[simp] lemma tokens_token (t : Token) (ps : List Piece) :
    tokens (.token t :: ps) = t :: tokens ps := rfl

@[simp] lemma tokens_gap (ps : List Piece) : tokens (.gap :: ps) = tokens ps := rfl

@[simp] lemma tokens_append (ps qs : List Piece) : tokens (ps ++ qs) = tokens ps ++ tokens qs := by
  simp [tokens]

def Spaced : List Piece → Prop
  | [] => True
  | .token t :: ps => t.fits = true ∧ t.Apart (chars ps) ∧ Spaced ps
  | .gap :: ps => Spaced ps

theorem lex_chars {ps : List Piece} (h : Spaced ps) : lex (chars ps) = some (tokens ps) := by
  induction ps with
  | nil => simp [lex]
  | cons p ps ih =>
    cases p with
    | token t =>
      obtain ⟨ht, hr, hs⟩ := h
      rw [chars_cons, Piece.chars, lex_token ht hr, ih hs]
      rfl
    | gap =>
      have hb : isBlank ' ' = true := by decide
      simpa [lex, hb] using ih h

end Overload.Syntax
