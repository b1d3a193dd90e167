import Mathlib.Tactic.Lemma
import Overload.Text.Digit

/-! Numerals. -/

namespace Overload.Text

open Nat

variable {c : Char} {cs : List Char} {n : Nat}

/-! ### Reading digits -/

lemma isDigit_iff : c.isDigit = true ↔ 48 ≤ c.toNat ∧ c.toNat ≤ 57 :=
  Char.isDigit_iff_toNat

lemma decimalValue?_ascii (h : c.isDigit = true) : decimalValue? c = some (c.toNat - '0'.toNat) :=
  decimalValue?_of_isDigit (Nat.lt_of_le_of_lt (isDigit_iff.1 h).2 (by decide)) h

lemma isDecimal_of_isDigit (h : c.isDigit = true) : isDecimal c = true := by
  rw [isDecimal, decimalValue?_ascii h]
  rfl

def readFrom (base : Nat) (value? : Char → Option Nat) (n : Nat) (cs : List Char) : Option Nat :=
  cs.foldlM (fun n c => (value? c).map (base * n + ·)) n

section Reading

variable {base : Nat} {value? : Char → Option Nat}

lemma readFrom_cons (n : Nat) (c : Char) (cs : List Char) :
    readFrom base value? n (c :: cs) =
      (value? c).bind fun d => readFrom base value? (base * n + d) cs := by
  cases h : value? c <;> simp [readFrom, h]

lemma readFrom_isSome (n : Nat) (cs : List Char) :
    (readFrom base value? n cs).isSome = cs.all fun c => (value? c).isSome := by
  induction cs generalizing n with
  | nil => rfl
  | cons c cs ih =>
    rw [readFrom_cons, List.all_cons]
    cases value? c with
    | none => rfl
    | some d => exact ih _

lemma readFrom_eq {value : Char → Nat} (h : ∀ c ∈ cs, value? c = some (value c)) (n : Nat) :
    readFrom base value? n cs = some (cs.foldl (fun n c => base * n + value c) n) := by
  induction cs generalizing n with
  | nil => rfl
  | cons c cs ih =>
    rw [List.forall_mem_cons] at h
    rw [readFrom_cons, h.1]
    exact ih h.2 _

end Reading

lemma digitsValue?_isSome (cs : List Char) : (digitsValue? cs).isSome = cs.all isDecimal :=
  readFrom_isSome 0 cs

lemma digitsValue?_ascii (h : ∀ c ∈ cs, c.isDigit = true) :
    digitsValue? cs = some (ofDigitChars 10 cs 0) :=
  readFrom_eq (fun c hc => decimalValue?_ascii (h c hc)) 0

/-! ### Canonical numerals -/

structure IsNumeral (cs : List Char) (n : Nat) : Prop where
  digits : ∀ c ∈ cs, c.isDigit = true
  nonempty : cs ≠ []
  leading : cs.head? = some '0' → cs = ['0']
  value : ofDigitChars 10 cs 0 = n

lemma digit_lt (h : c.isDigit = true) : c.toNat - '0'.toNat < 10 := by
  have := isDigit_iff.1 h
  change c.toNat - 48 < 10
  omega

lemma digitChar_digit (h : c.isDigit = true) : digitChar (c.toNat - '0'.toNat) = c := by
  rw [← Char.toNat_inj, toNat_digitChar_of_lt_ten (digit_lt h)]
  have := isDigit_iff.1 h
  change 48 + (c.toNat - 48) = c.toNat
  omega

lemma toDigits_append (h : ∀ c ∈ cs, c.isDigit = true) (hn : 0 < n) :
    toDigits 10 n ++ cs = toDigits 10 (ofDigitChars 10 cs n) := by
  induction cs generalizing n with
  | nil => simp
  | cons c cs ih =>
    rw [List.forall_mem_cons] at h
    have hstep := toDigits_append_toDigits (by decide) hn (digit_lt h.1)
    rw [toDigits_of_lt_base (digit_lt h.1), digitChar_digit h.1] at hstep
    rw [ofDigitChars_cons, ← ih h.2 (by omega), ← hstep, List.append_assoc]
    rfl

lemma IsNumeral.eq_toDigits (h : IsNumeral cs n) : cs = toDigits 10 n := by
  obtain ⟨hdigits, hne, hleading, rfl⟩ := h
  cases cs with
  | nil => exact absurd rfl hne
  | cons c cs =>
    rw [List.forall_mem_cons] at hdigits
    by_cases hzero : c = '0'
    · obtain rfl := hzero
      rw [hleading rfl]
      rfl
    · have hpos : 0 < c.toNat - '0'.toNat := by
        have hne : c.toNat ≠ 48 := fun h => hzero (Char.toNat_inj.1 h)
        have := isDigit_iff.1 hdigits.1
        change 0 < c.toNat - 48
        omega
      rw [ofDigitChars_cons, Nat.mul_zero, Nat.zero_add, ← toDigits_append hdigits.2 hpos,
        toDigits_of_lt_base (digit_lt hdigits.1), digitChar_digit hdigits.1]
      rfl

lemma head?_toDigits_ne_zero (hn : 0 < n) : (toDigits 10 n).head? ≠ some '0' := by
  induction n using Nat.strongRecOn with
  | ind n ih =>
    by_cases hlt : n < 10
    · have hdigit : digitChar n ≠ '0' := by
        rw [Ne, ← Char.toNat_inj, toNat_digitChar_of_lt_ten hlt]
        change 48 + n ≠ 48
        omega
      rw [toDigits_of_lt_base hlt]
      exact fun h => hdigit (Option.some.inj h)
    · rw [toDigits_of_base_le (by decide) (by omega), List.head?_append,
        Option.or_of_isSome (by simp)]
      exact ih (n / 10) (by omega) (by omega)

lemma isNumeral_toDigits (n : Nat) : IsNumeral (toDigits 10 n) n where
  digits _ hc := isDigit_of_mem_toDigits (by decide) (by decide) hc
  nonempty := toDigits_ne_nil
  leading h := by
    rcases Nat.eq_zero_or_pos n with rfl | hn
    · rfl
    · exact absurd h (head?_toDigits_ne_zero hn)
  value := ofDigitChars_ten_toDigits

lemma isNumeral_iff {s : String} : IsNumeral s.toList n ↔ s = toString n := by
  rw [toString_eq_repr, ← String.toList_inj, toList_repr]
  exact ⟨IsNumeral.eq_toDigits, fun h => h ▸ isNumeral_toDigits n⟩

end Overload.Text
