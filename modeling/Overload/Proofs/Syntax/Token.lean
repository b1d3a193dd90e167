import Mathlib.Tactic.Lemma
import Overload.Number.Reading
import Overload.Proofs.Syntax.Expr
import Overload.Source.Escape

/-! Tokens and the lexer. -/

namespace Overload.Syntax

open Option List

inductive Token where
  | word (s : String)
  | number (n : Nat)
  | text (s : String)
  | mark (s : String)
  deriving DecidableEq, Repr

def marks : List String :=
  [">>>=", "...", "===", "!==", "**=", "<<=", ">>=", ">>>", "&&=", "||=", "??=", "=>", "==", "!=",
   "<=", ">=", "&&", "||", "??", "?.", "++", "--", "+=", "-=", "*=", "/=", "%=", "&=", "|=", "^=",
   "<<", ">>", "**", "\x7b", "\x7d", "(", ")", "[", "]", ".", ";", ",", "<", ">", "+", "-", "*",
   "/", "%", "&", "|", "^", "!", "~", "?", ":", "=", "#"]

def scanMark (cs : List Char) : Option (Token × List Char) :=
  if "//".toList.isPrefixOf cs || "/*".toList.isPrefixOf cs then none
  else (marks.find? fun m => m.toList.isPrefixOf cs).map fun m => (.mark m, cs.drop m.length)

def scanNumber (cs : List Char) : Option (Token × List Char) :=
  let digits := cs.takeWhile Char.isDigit
  let rest := cs.dropWhile Char.isDigit
  if digits.length ≠ 1 ∧ digits.head? = some '0' then none
  else if rest.head?.any fun c => c == '.' || c == '\\' || isNameStart c then none
  else some (.number (Nat.ofDigitChars 10 digits 0), rest)

def ofHex? (digits : List Char) : Option Char :=
  (Num.radixValue? 16 digits).bind fun n => if n.isValidChar then some (Char.ofNat n) else none

def escaped (c : Char) : Char :=
  if c = 'n' then '\n'
  else if c = 'r' then '\r'
  else if c = 't' then '\t'
  else if c = 'b' then '\x08'
  else if c = 'f' then '\x0c'
  else if c = 'v' then '\x0b'
  else c

def unescape : List Char → Option (Char × List Char)
  | 'x' :: a :: b :: rest => (ofHex? [a, b]).map (·, rest)
  | 'u' :: a :: b :: c :: d :: rest => (ofHex? [a, b, c, d]).map (·, rest)
  | c :: rest =>
    if c.isDigit || ['x', 'u', '\n', '\r', '\u2028', '\u2029'].contains c then none
    else some (escaped c, rest)
  | [] => none

lemma length_unescape {cs rest : List Char} {c : Char} (h : unescape cs = some (c, rest)) :
    rest.length < cs.length := by
  unfold unescape at h
  split at h
  · obtain ⟨_, _, he⟩ := map_eq_some_iff.1 h
    grind
  · obtain ⟨_, _, he⟩ := map_eq_some_iff.1 h
    grind
  · grind
  · simp at h

def scanText (cs : List Char) : Option (List Char × List Char) :=
  match cs with
  | [] => none
  | c :: cs =>
    if c = '"' then some ([], cs)
    else if c = '\n' ∨ c = '\r' then none
    else if c = '\\' then
      match _h : unescape cs with
      | none => none
      | some (d, rest) => (scanText rest).map fun r => (d :: r.1, r.2)
    else (scanText cs).map fun r => (c :: r.1, r.2)
termination_by cs.length
decreasing_by
  · have := length_unescape _h
    simp only [length_cons]
    omega
  · simp

def scan : List Char → Option (Token × List Char)
  | [] => none
  | c :: cs =>
    if isNameStart c then
      some (.word (String.ofList (c :: cs.takeWhile isNamePart)), cs.dropWhile isNamePart)
    else if c.isDigit then scanNumber (c :: cs)
    else if c = '"' then (scanText cs).map fun r => (.text (String.ofList r.1), r.2)
    else scanMark (c :: cs)

lemma length_scanText {cs rest body : List Char} (h : scanText cs = some (body, rest)) :
    rest.length < cs.length := by
  fun_induction scanText cs generalizing body rest with
  | case1 => simp at h
  | case2 => simp_all
  | case3 | case4 => simp at h
  | case5 cs d tail ht _ _ ih =>
    obtain ⟨⟨_, r⟩, hr, he⟩ := map_eq_some_iff.1 h
    have := ih hr
    have := length_unescape ht
    obtain ⟨-, rfl⟩ := Prod.mk.inj he
    simp only [length_cons]
    omega
  | case6 c cs _ _ _ ih =>
    obtain ⟨⟨_, r⟩, hr, he⟩ := map_eq_some_iff.1 h
    have := ih hr
    obtain ⟨-, rfl⟩ := Prod.mk.inj he
    simp only [length_cons]
    omega

lemma length_scan {cs rest : List Char} {t : Token} (h : scan cs = some (t, rest)) :
    rest.length < cs.length := by
  cases cs with
  | nil => simp [scan] at h
  | cons c cs =>
    rw [scan] at h
    split at h
    · obtain ⟨-, rfl⟩ := by simpa using h
      have := (dropWhile_sublist isNamePart (l := cs)).length_le
      simp only [length_cons]
      omega
    split at h
    · rename_i hd
      simp only [scanNumber] at h
      split at h
      · simp at h
      split at h
      · simp at h
      obtain ⟨-, rfl⟩ := by simpa using h
      rw [dropWhile_cons_of_pos hd]
      have := (dropWhile_sublist Char.isDigit (l := cs)).length_le
      simp only [length_cons]
      omega
    split at h
    · obtain ⟨⟨_, r⟩, hr, he⟩ := map_eq_some_iff.1 h
      have := length_scanText hr
      simp_all
      omega
    · simp only [scanMark] at h
      split at h
      · simp at h
      obtain ⟨m, hm, he⟩ := map_eq_some_iff.1 h
      have hpos : ∀ m ∈ marks, 0 < m.length := by decide
      have := hpos m (mem_of_find?_eq_some hm)
      obtain ⟨-, rfl⟩ := by simpa using he
      simp
      omega

def lex (cs : List Char) : Option (List Token) :=
  match cs with
  | [] => some []
  | c :: cs =>
    if Text.isBlank c then lex cs
    else
      match _h : scan (c :: cs) with
      | none => none
      | some (t, rest) => (lex rest).map (t :: ·)
termination_by cs.length
decreasing_by
  · simp
  · exact length_scan _h

end Overload.Syntax
