import Overload.Action
import Overload.Proofs.Failing
import Overload.Proofs.Text.Numerals

/-! Keys of lists and tuples. -/

namespace Overload

namespace Text

lemma isDigit_of_isDecimal {c : Char} (h : isDecimal c = true) : isDigit c = true := by
  simp [isDigit, h]

lemma digitsValue?_eq_none_iff {cs : List Char} :
    digitsValue? cs = none ↔ ∃ c ∈ cs, isDecimal c = false := by
  rw [← Option.isNone_iff_eq_none, ← Option.not_isSome, digitsValue?_isSome]
  simp

/-- A text of digits only. -/
def IsDigits (cs : List Char) : Prop := cs ≠ [] ∧ ∀ c ∈ cs, isDigit c = true

lemma not_isEmpty_or_iff {cs : List Char} :
    ¬ (cs.isEmpty || !cs.all isDigit) = true ↔ IsDigits cs := by
  simp [IsDigits]

end Text

namespace Action

open Text

lemma isIndex_eq_error_iff {name : String} {length : Nat} {f : Fault} :
    isIndex name length = .error f ↔ IsDigits name.toList ∧
      (f = .tooLong ∧ Num.digitLimit < name.toList.length ∨
        f = .notNumeral ∧ name.toList.length ≤ Num.digitLimit ∧
          ∃ c ∈ name.toList, isDecimal c = false) := by
  rw [isIndex, ← not_isEmpty_or_iff, ← digitsValue?_eq_none_iff, ← Nat.not_lt]
  split
  · rename_i hempty
    exact iff_of_false nofun fun h => h.1 hempty
  · rename_i hdigits
    rw [and_iff_right hdigits]
    split
    · rename_i hlong
      simp [hlong, eq_comm]
    · rename_i hshort
      cases digitsValue? name.toList <;> simp [hshort, eq_comm]

lemma isIndex_eq_true_iff {name : String} {length : Nat} :
    isIndex name length = .ok true ↔
      name.toList.length ≤ Num.digitLimit ∧ ∃ i < length, IsNumeral name.toList i := by
  rw [isIndex]
  constructor
  · intro h
    split at h
    · exact absurd (Except.ok.inj h) Bool.false_ne_true
    · split at h
      · cases h
      · rename_i hshort
        split at h
        · cases h
        · rename_i n hn
          have h := Except.ok.inj h
          rw [Bool.and_eq_true, beq_iff_eq, decide_eq_true_eq] at h
          exact ⟨Nat.not_lt.1 hshort, n, h.2, isNumeral_iff.2 h.1.symm⟩
  · rintro ⟨hshort, i, hi, hnumeral⟩
    have hdigits : ∀ c ∈ name.toList, isDigit c = true := fun c hc =>
      isDigit_of_isDecimal (isDecimal_of_isDigit (hnumeral.digits c hc))
    have hname : toString i = name := (isNumeral_iff.1 hnumeral).symm
    rw [if_neg (not_isEmpty_or_iff.2 ⟨hnumeral.nonempty, hdigits⟩), if_neg (Nat.not_lt.2 hshort),
      digitsValue?_ascii hnumeral.digits, hnumeral.value]
    simp [hname, hi]

def HasItems (object : Value) (xs : List Value) : Prop :=
  ∃ ref, object = .list ref xs ∨ object = .tuple ref xs

lemma hasProperty_of_hasItems {object : Value} {xs : List Value} (h : HasItems object xs)
    (key : Value) : hasProperty key object = (key.write >>= fun name => hasItem name xs.length) := by
  obtain ⟨ref, rfl | rfl⟩ := h <;> rfl

/-- A list or tuple answers to `length` and to the canonical numerals of its indexes. -/
lemma hasItem_eq_true_iff {name : Spelling} {length : Nat} : hasItem name length = .ok true ↔
    ∃ s : String, name.string? = some s ∧ s.toList.length ≤ Num.digitLimit ∧
      (s = "length" ∨ ∃ i < length, IsNumeral s.toList i) := by
  rw [hasItem]
  cases name.string? with
  | none => simp
  | some s =>
    by_cases hlength : s = "length"
    · subst hlength
      simpa using (by decide : "length".toList.length ≤ Num.digitLimit)
    · simp [hlength, isIndex_eq_true_iff]

lemma hasItem_eq_error_iff {name : Spelling} {length : Nat} {f : Fault} :
    hasItem name length = .error f ↔
      ∃ s : String, name.string? = some s ∧ IsDigits s.toList ∧
        (f = .tooLong ∧ Num.digitLimit < s.toList.length ∨
          f = .notNumeral ∧ s.toList.length ≤ Num.digitLimit ∧
            ∃ c ∈ s.toList, isDecimal c = false) := by
  rw [hasItem]
  cases name.string? with
  | none => simp
  | some s =>
    by_cases hlength : s = "length"
    · subst hlength
      have hdigits : ¬ IsDigits "length".toList := fun h =>
        absurd (h.2 'l' (by decide)) (by decide)
      refine iff_of_false nofun ?_
      rintro ⟨s, ⟨⟩, h, -⟩
      exact hdigits h
    · simp [hlength, isIndex_eq_error_iff]

/-- A list or tuple answers to `length` and to the canonical numerals of its indexes. The search for
a key fails if the key or a text of digits is too long, or if the digits are not all decimal, as
superscripts and circled digits are not. It finds nothing otherwise. -/
theorem keys_of_items {object : Value} {xs : List Value} (h : HasItems object xs) (key : Value) :
    (hasProperty key object = .ok true ↔ ∃ s : String, key.write = .ok ↑s ∧
      s.toList.length ≤ Num.digitLimit ∧
        (s = "length" ∨ ∃ i < xs.length, IsNumeral s.toList i)) ∧
    ∀ f, hasProperty key object = .error f ↔
      f = .tooLong ∧ key.isWritable = false ∨
      ∃ s : String, key.write = .ok ↑s ∧ IsDigits s.toList ∧
        (f = .tooLong ∧ Num.digitLimit < s.toList.length ∨
          f = .notNumeral ∧ s.toList.length ≤ Num.digitLimit ∧
            ∃ c ∈ s.toList, isDecimal c = false) := by
  rw [hasProperty_of_hasItems h, Value.write]
  cases hwritable : key.isWritable with
  | true =>
    simp only [if_true, ok_bind, Except.ok.injEq, ← Spelling.string?_eq_some_iff]
    refine ⟨hasItem_eq_true_iff, fun f => hasItem_eq_error_iff.trans ?_⟩
    rw [or_iff_right fun hf => Bool.false_ne_true hf.2.symm]
  | false => simp [eq_comm (a := Fault.tooLong)]

theorem keys_of_items_nested :
    hasProperty (.list 1 [.int 1]) (.tuple 0 [.null, .null]) = .ok true := by
  have h : HasItems (.tuple 0 [.null, .null]) [.null, .null] := ⟨0, .inr rfl⟩
  refine (keys_of_items h (.list 1 [.int 1])).1.2 ⟨"1", rfl, by decide, .inr ⟨1, by decide, ?_⟩⟩
  exact isNumeral_toDigits 1

theorem search_for_superscript_fails :
    hasProperty (.str "²") (.list 0 [.int 1]) = .error .notNumeral := rfl

end Action

end Overload
