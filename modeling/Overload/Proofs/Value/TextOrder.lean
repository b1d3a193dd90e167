import Overload.Proofs.Value.Converse

/-! The order of texts. -/

namespace Overload

open Ordering

/-! ### Bytes and code units -/

namespace Text

lemma compare_unitBytes (u v : Nat) :
    (compare (u / 0x100) (v / 0x100)).then (compare (u % 0x100) (v % 0x100)) = compare u v := by
  rcases Nat.lt_trichotomy (u / 0x100) (v / 0x100) with h | h | h
  · have huv : u < v := by omega
    rw [Nat.compare_eq_lt.2 h, Nat.compare_eq_lt.2 huv]
    rfl
  · rw [Nat.compare_eq_eq.2 h, eq_then]
    rcases Nat.lt_trichotomy u v with huv | rfl | hvu
    · rw [Nat.compare_eq_lt.2 huv, Nat.compare_eq_lt.2 (by omega)]
    · rw [Nat.compare_eq_eq.2 rfl, Nat.compare_eq_eq.2 rfl]
    · rw [Nat.compare_eq_gt.2 hvu, Nat.compare_eq_gt.2 (by omega)]
  · have hvu : v < u := by omega
    rw [Nat.compare_eq_gt.2 h, Nat.compare_eq_gt.2 hvu]
    rfl

lemma compareUnits_flatMap_unitBytes (us vs : List Nat) :
    compareUnits (us.flatMap unitBytes) (vs.flatMap unitBytes) = compareUnits us vs := by
  induction us generalizing vs with
  | nil => cases vs <;> rfl
  | cons u us ih =>
    cases vs with
    | nil => rfl
    | cons v vs =>
      rw [List.flatMap_cons, List.flatMap_cons, compareUnits, ← compare_unitBytes, ← ih vs,
        then_assoc]
      rfl

lemma compareUnits_bytes (s t : String) :
    compareUnits (bytes s) (bytes t) = compareUnits (units s) (units t) :=
  compareUnits_flatMap_unitBytes _ _

lemma compareUnits_eq_lt {us vs : List Nat} : compareUnits us vs = .lt ↔ us < vs := by
  induction us generalizing vs with
  | nil => cases vs <;> simp [compareUnits]
  | cons u us ih =>
    cases vs with
    | nil => simp [compareUnits]
    | cons v vs =>
      rw [compareUnits, then_eq_lt, Nat.compare_eq_lt, Nat.compare_eq_eq, ih,
        List.cons_lt_cons_iff]

lemma compareUnits_eq_eq {us vs : List Nat} : compareUnits us vs = .eq ↔ us = vs := by
  induction us generalizing vs with
  | nil => cases vs <;> simp [compareUnits]
  | cons u us ih =>
    cases vs with
    | nil => simp [compareUnits]
    | cons v vs =>
      rw [compareUnits, then_eq_eq, Nat.compare_eq_eq, ih, List.cons.injEq]

/-! ### Texts and code units -/

lemma charUnits_append_inj {c d : Char} {us vs : List Nat}
    (h : charUnits c ++ us = charUnits d ++ vs) : c = d ∧ us = vs := by
  have hc : c.toNat < 0xd800 ∨ 0xdfff < c.toNat ∧ c.toNat < 0x110000 := c.valid
  have hd : d.toNat < 0xd800 ∨ 0xdfff < d.toNat ∧ d.toNat < 0x110000 := d.valid
  rw [charUnits, charUnits] at h
  suffices c.toNat = d.toNat ∧ us = vs from ⟨Char.toNat_inj.1 this.1, this.2⟩
  by_cases hcp : c.toNat < 0x10000 <;> by_cases hdp : d.toNat < 0x10000 <;>
    simp only [hcp, hdp, if_true, if_false, List.cons_append, List.nil_append,
      List.cons.injEq] at h
  · exact h
  · omega
  · omega
  · exact ⟨by omega, h.2.2⟩

lemma flatMap_charUnits_inj {cs ds : List Char} (h : cs.flatMap charUnits = ds.flatMap charUnits) :
    cs = ds := by
  have hne (c : Char) : charUnits c ≠ [] := by
    rw [charUnits]
    split <;> simp
  induction cs generalizing ds with
  | nil =>
    cases ds with
    | nil => rfl
    | cons d ds => simp [hne d] at h
  | cons c cs ih =>
    cases ds with
    | nil => simp [hne c] at h
    | cons d ds =>
      obtain ⟨rfl, hrest⟩ := charUnits_append_inj h
      rw [ih hrest]

lemma units_inj {s t : String} : units s = units t ↔ s = t :=
  ⟨fun h => String.toList_injective (flatMap_charUnits_inj h), congrArg units⟩

end Text

/-! ### Comparisons of texts -/

namespace Value

open Text

lemma ordered_str (test : Ordering → Bool) (a b : String) :
    ordered test (.str a) (.str b) = .ok (test (compareUnits (units a) (units b))) := by
  rw [← compareUnits_bytes, ordered, compare?_str, encode_ofString, encode_ofString]
  rfl

lemma lessThan_str_iff {a b : String} :
    lessThan (.str a) (.str b) = .ok true ↔ units a < units b := by
  rw [lessThan, ordered_str, Except.ok.injEq, isLT_iff_eq_lt, compareUnits_eq_lt]

lemma strictEquals_str (a b : String) :
    strictEquals (.str a) (.str b) = (compareUnits (units a) (units b) == .eq) := by
  rw [strictEquals, Bool.eq_iff_iff, beq_iff_eq, beq_iff_eq, Spelling.ofString_inj,
    compareUnits_eq_eq, units_inj]

/-- Texts are ordered as their sequences of UTF-16 code units are lexicographically. Of any two, one
is less, or both are equal; the other two comparisons are the negations; and being less is
transitive. -/
theorem texts_ordered_by_code_units (a b c : String) :
    (lessThan (.str a) (.str b) = .ok true ↔ List.Lex (· < ·) (units a) (units b)) ∧
    (∃ less greater, lessThan (.str a) (.str b) = .ok less ∧
      greaterThan (.str a) (.str b) = .ok greater ∧
      [less, greater, strictEquals (.str a) (.str b)].count true = 1 ∧
      lessEqual (.str a) (.str b) = .ok (!greater) ∧
      greaterEqual (.str a) (.str b) = .ok (!less)) ∧
    (lessThan (.str a) (.str b) = .ok true → lessThan (.str b) (.str c) = .ok true →
      lessThan (.str a) (.str c) = .ok true) := by
  refine ⟨lessThan_str_iff, ⟨_, _, ordered_str _ a b, ordered_str _ a b, ?_, ?_, ?_⟩, ?_⟩
  · rw [strictEquals_str]
    cases compareUnits (units a) (units b) <;> rfl
  · rw [lessEqual, ordered_str]
    cases compareUnits (units a) (units b) <;> rfl
  · rw [greaterEqual, ordered_str]
    cases compareUnits (units a) (units b) <;> rfl
  · simp only [lessThan_str_iff]
    exact List.lt_trans

theorem texts_ordered_by_code_units_planes :
    lessThan (.str "😀") (.str "ﬀ") = .ok true ∧ lessThan (.str "ﬀ") (.str "ﬀi") = .ok true ∧
      lessThan (.str "😀") (.str "ﬀi") = .ok true ∧ ("ﬀ" < "😀") := by
  refine ⟨rfl, rfl, ?_, by decide⟩
  exact (texts_ordered_by_code_units "😀" "ﬀ" "ﬀi").2.2 rfl rfl

end Value

end Overload
