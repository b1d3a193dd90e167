import Mathlib.Data.List.Nodup
import Mathlib.Data.List.Perm.Subperm
import Overload.Names

/-! The supply hands out names that are free: one of the numbers that a search tries is. -/

namespace Overload.Supply

open List

lemma numbered_injective (base : String) : Function.Injective (numbered base) := by
  intro k l h
  have hdigits : Nat.toDigits 10 k = Nat.toDigits 10 l := by
    simpa [numbered, Nat.toString_eq_ofList_toDigits] using congrArg String.toList h
  rw [← Nat.ofDigitChars_ten_toDigits (n := k), hdigits, Nat.ofDigitChars_ten_toDigits]

lemma seek_cases (taken : List String) (base : String) (fuel k : Nat) :
    seek taken base fuel k = k + fuel ∨ numbered base (seek taken base fuel k) ∉ taken := by
  induction fuel generalizing k with
  | zero => exact .inl rfl
  | succ fuel ih =>
    rw [seek]
    split
    · rcases ih (k + 1) with h | h
      · exact .inl (by omega)
      · exact .inr h
    · rename_i h
      exact .inr (by simpa using h)

lemma seek_free (taken : List String) (base : String) (k : Nat) :
    numbered base (seek taken base (taken.length + 1) k) ∉ taken := by
  rcases seek_cases taken base (taken.length + 1) k with h | h
  · let tried := (range' k (taken.length + 1)).map (numbered base)
    have hnodup : tried.Nodup := (nodup_range' 1).map (numbered_injective base)
    have hsub : tried ⊆ taken := by
      intro name hname
      obtain ⟨i, hi, rfl⟩ := mem_map.1 hname
      have hi := mem_range'_1.1 hi
      simpa using contains_of_lt_seek hi.1 (by rw [h]; exact hi.2)
    have hlen := (subperm_of_subset hnodup hsub).length_le
    simp only [tried, length_map, length_range'] at hlen
    omega
  · exact h

lemma fresh_free (s : Supply) (base : String) : (s.fresh base).1 ∉ s.taken := by
  unfold fresh
  split
  · exact seek_free s.taken base (s.counter base + 1)
  · rename_i h
    simpa [has] using h

lemma taken_fresh (s : Supply) (base : String) :
    (s.fresh base).2.taken = (s.fresh base).1 :: s.taken := by
  unfold fresh
  split <;> rfl

lemma fresh_cases (s : Supply) (base : String) :
    (s.fresh base).1 = base ∨ ∃ k, (s.fresh base).1 = numbered base k := by
  unfold fresh
  split
  · exact .inr ⟨_, rfl⟩
  · exact .inl rfl

end Overload.Supply
