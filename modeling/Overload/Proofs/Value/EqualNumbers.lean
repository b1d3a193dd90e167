import Overload.Proofs.Number.ShortestInteger
import Overload.Proofs.Value.Converse

/-!
Numbers that are equal. An integer and a double of the same value need not have the same text. Main
statement: they have it just if the integer has the digits of its double.
-/

namespace Overload

open Int

namespace Number

/-! ### Integers with the same double -/

lemma interval_ofMagnitude (negative : Bool) (bits : Nat) :
    (ofMagnitude negative bits).interval = intervalOf bits := by
  rw [intervalOf, ofMagnitude, ofMagnitude]
  split <;> rfl

lemma normal_of_size {negative : Bool} {bits n : Nat} (hn : 0 < n)
    (hsize : (ofMagnitude negative bits).size = n) :
    2 ^ 52 ≤ (ofMagnitude negative bits).significand ∧
      (ofMagnitude negative bits).significand < 2 ^ 53 := by
  rw [ofMagnitude] at hsize ⊢
  split at hsize
  · rename_i hlow
    -- Doubles without a hidden bit are below one.
    have hpow : (2 : ℚ) ^ (-1074 : ℤ) ≤ 2 ^ (-52 : ℤ) :=
      zpow_le_zpow_right₀ one_le_two (by decide)
    have hbits : (bits : ℚ) < 2 ^ (52 : ℤ) := by exact_mod_cast hlow
    have hone : (1 : ℚ) ≤ n := by exact_mod_cast hn
    have hlt : (bits : ℚ) * 2 ^ (-52 : ℤ) < 2 ^ (52 : ℤ) * 2 ^ (-52 : ℤ) :=
      mul_lt_mul_of_pos_right hbits (by positivity)
    rw [← zpow_add₀ two_ne_zero, add_neg_cancel, zpow_zero] at hlt
    rw [← hsize, Dyadic.size] at hone
    have := mul_le_mul_of_nonneg_left hpow (Nat.cast_nonneg (α := ℚ) bits)
    linarith
  · rename_i hlow
    rw [if_neg hlow]
    dsimp only
    omega

lemma nearestBits_one_iff (negative : Bool) {bits n : Nat} (hn : 0 < n) :
    nearestBits n 1 = bits ↔ (ofMagnitude negative bits).interval.Has n := by
  rw [interval_ofMagnitude, nearestBits_eq_iff hn Nat.one_pos, Nat.cast_one, div_one]

lemma nearestBits_of_size {negative : Bool} {bits n : Nat} (hn : 0 < n)
    (hsize : (ofMagnitude negative bits).size = n) : nearestBits n 1 = bits :=
  (nearestBits_one_iff negative hn).2 (has_self hsize (normal_of_size hn hsize).1)

lemma ofInt?_eq_some {n : Int} {bits : Nat} (hn : n ≠ 0) (h : nearestBits n.natAbs 1 = bits)
    (hbits : bits < infinityBits) : ofInt? n = some (signed (n < 0) bits) := by
  have hx : ofRatio (n < 0) n.natAbs 1 = signed (n < 0) bits := by
    rw [ofRatio_eq_signed _ (natAbs_pos.2 hn), h, min_eq_left hbits.le]
  have hinf : (signed (n < 0) bits).isInf = false :=
    Bool.eq_false_iff.2 fun hinf => hbits.ne ((isInf_signed _ hbits.le).1 hinf)
  rw [ofInt?, hx]
  simp [hinf]

lemma ofInt?_eq_iff {n : Int} {bits : Nat} (hn : n ≠ 0) (h : nearestBits n.natAbs 1 = bits)
    (hbits : bits < infinityBits) (hpos : bits ≠ 0) (m : Int) : ofInt? m = ofInt? n ↔
      m ≠ 0 ∧ (m < 0 ↔ n < 0) ∧ nearestBits m.natAbs 1 = bits := by
  rw [ofInt?_eq_some hn h hbits]
  constructor
  · intro hm
    have hx : ofRatio (m < 0) m.natAbs 1 = signed (n < 0) bits := by
      simp only [ofInt?] at hm
      split at hm
      · cases hm
      · exact Option.some.inj hm
    have hne : m ≠ 0 := by
      rintro rfl
      have hmagnitude := congrArg magnitudeBits hx
      rw [magnitudeBits_signed _ hbits.le] at hmagnitude
      exact hpos hmagnitude.symm
    rw [ofRatio_eq_signed _ (natAbs_pos.2 hne)] at hx
    have hsign := congrArg signBit hx
    have hmagnitude := congrArg magnitudeBits hx
    rw [signBit_signed _ (min_le_right _ _), signBit_signed _ hbits.le] at hsign
    rw [magnitudeBits_signed _ (min_le_right _ _), magnitudeBits_signed _ hbits.le] at hmagnitude
    exact ⟨hne, decide_eq_decide.1 hsign, by omega⟩
  · rintro ⟨hm, hsign, hbits'⟩
    rw [ofInt?_eq_some hm hbits' hbits, decide_eq_decide.2 hsign]

section Integral

variable {negative : Bool} {bits : Nat} {n : Int} (hn : n ≠ 0) (hbits : bits < infinityBits)
  (hsize : (ofMagnitude negative bits).size = n.natAbs)
include hn hbits hsize

lemma ofInt?_eq_iff_has (m : Int) : ofInt? m = ofInt? n ↔
    m ≠ 0 ∧ (m < 0 ↔ n < 0) ∧ (ofMagnitude negative bits).interval.Has m.natAbs := by
  have hpos := natAbs_pos.2 hn
  have hne : bits ≠ 0 := by
    rintro rfl
    have := (normal_of_size hpos hsize).1
    exact absurd this (by simp [ofMagnitude])
  rw [ofInt?_eq_iff hn (nearestBits_of_size hpos hsize) hbits hne m]
  apply and_congr_right
  intro hm
  rw [nearestBits_one_iff negative (natAbs_pos.2 hm)]

lemma dvd_iff : (∀ m k : Nat, (ofMagnitude negative bits).interval.Has m → 10 ^ k ∣ m →
      10 ^ k ∣ n.natAbs) ↔
    ∀ (m : Int) (k : Nat), ofInt? m = ofInt? n → (10 ^ k : Int) ∣ m → (10 ^ k : Int) ∣ n := by
  have hdvd (m : Int) (k : Nat) : (10 ^ k : Int) ∣ m ↔ 10 ^ k ∣ m.natAbs := by
    rw [← natAbs_dvd_natAbs, natAbs_pow]
    rfl
  simp only [hdvd, ofInt?_eq_iff_has hn hbits hsize]
  constructor
  · intro h m k hm
    exact h m.natAbs k hm.2.2
  · intro h m k hm hk
    have hm' := (has_bounds hsize (normal_of_size (natAbs_pos.2 hn) hsize).1 hm).1
    have habs : (if n < 0 then -(m : Int) else m).natAbs = m := by
      split <;> simp
    refine h (if n < 0 then -(m : Int) else m) k ⟨?_, ?_, by rwa [habs]⟩ (by rwa [habs])
    · split <;> omega
    · split <;> omega

lemma eq_of_ofInt?_eq (h : n.natAbs < 2 ^ 53) {m : Int} (hm : ofInt? m = ofInt? n) : m = n := by
  obtain ⟨-, hsign, hhas⟩ := (ofInt?_eq_iff_has hn hbits hsize m).1 hm
  have hnormal := (normal_of_size (natAbs_pos.2 hn) hsize).1
  suffices habs : m.natAbs = n.natAbs by omega
  have hunit : (2 : ℚ) ^ (ofMagnitude negative bits).exponent ≤ 1 := by
    refine zpow_le_one_of_nonpos₀ one_le_two (not_lt.1 fun hgt => ?_)
    have hpow : (2 : ℚ) ^ (1 : ℤ) ≤ 2 ^ (ofMagnitude negative bits).exponent :=
      zpow_le_zpow_right₀ one_le_two hgt
    have hsig : (2 ^ 52 : ℚ) ≤ (ofMagnitude negative bits).significand := by exact_mod_cast hnormal
    have hmul := mul_le_mul hsig hpow (by norm_num) (Nat.cast_nonneg _)
    have hlt : (n.natAbs : ℚ) < 2 ^ 53 := by exact_mod_cast h
    rw [← Dyadic.size, hsize] at hmul
    norm_num at hmul hlt
    linarith
  obtain ⟨hlow, hhigh⟩ := has_near hsize hnormal hhas
  have hlow' : (n.natAbs : ℚ) < m.natAbs + 1 := by linarith
  have hhigh' : (m.natAbs : ℚ) < n.natAbs + 1 := by linarith
  norm_cast at hlow' hhigh'
  omega

end Integral

end Number

namespace Num

open Number

/-! ### Texts of equal numbers -/

def HasDigitsOfDouble (n : Int) : Prop :=
  n.natAbs < 10 ^ 21 ∧
    ∀ (m : Int) (k : Nat), ofInt? m = ofInt? n → (10 ^ k : Int) ∣ m → (10 ^ k : Int) ∣ n

lemma exists_bits_of_value {x : Float} {n : Int} (hn : n ≠ 0) (h : (decode x).value = n) :
    decode x = ofMagnitude (n < 0) (magnitudeBits x) ∧
      (ofMagnitude (n < 0) (magnitudeBits x)).size = n.natAbs := by
  have hnonneg : 0 ≤ (decode x).size := by
    rw [Dyadic.size]
    positivity
  have hsign : (decode x).negative = decide (n < 0) ∧ (decode x).size = n.natAbs := by
    rw [Dyadic.value] at h
    rw [Nat.cast_natAbs, cast_abs]
    split at h
    · rename_i hneg
      have hle : (n : ℚ) ≤ 0 := by linarith
      rw [abs_of_nonpos hle, hneg, eq_comm, decide_eq_true_eq]
      exact ⟨lt_of_le_of_ne (by exact_mod_cast hle) hn, by linarith⟩
    · rename_i hneg
      have hle : (0 : ℚ) ≤ n := by linarith
      rw [abs_of_nonneg hle, Bool.eq_false_iff.2 hneg, eq_comm, decide_eq_false_iff_not, not_lt]
      exact ⟨by exact_mod_cast hle, h⟩
  rw [decode_eq, negative_ofMagnitude] at hsign
  rw [decode_eq, ← hsign.1]
  exact ⟨rfl, hsign.2⟩

lemma text_of_finite {x : Float} (h : magnitudeBits x < infinityBits) : plainLayout.text x =
    if (decode x).significand = 0 then "0"
    else (if (decode x).negative then "-" else "") ++
      String.ofList (plainLayout.digitsText (decode x).shortest) := by
  have hnan : ¬ x.isNaN = true := by
    rw [isNaN_iff]
    omega
  have hinf : ¬ x.isInf = true := by
    rw [isInf_iff]
    omega
  rw [Layout.text, if_neg hnan, if_neg hinf]
  simp [plainLayout]

lemma text_eq_iff {x : Float} {n : Int} (hn : n ≠ 0) (hfinite : magnitudeBits x < infinityBits)
    (hvalue : (decode x).value = n) : toString n = plainLayout.text x ↔ HasDigitsOfDouble n := by
  obtain ⟨hdecode, hsize⟩ := exists_bits_of_value hn hvalue
  have hpos := natAbs_pos.2 hn
  obtain ⟨hs, hs'⟩ := normal_of_size hpos hsize
  rw [HasDigitsOfDouble, ← dvd_iff hn hfinite hsize, ← digitsText_shortest hsize hpos hs hs',
    text_of_finite hfinite, hdecode, if_neg (by omega), negative_ofMagnitude, ← String.toList_inj,
    toList_toString, eq_comm]
  by_cases hneg : n < 0 <;> simp [hneg]

lemma text_of_equal {x y : Float} (h : (Num.float x).equal (.float y) = true) :
    plainLayout.text x = plainLayout.text y := by
  rw [equal, compare?_float, ← beq_eq, Float.beq_iff_ne_nan_and_eq] at h
  obtain ⟨-, -, rfl | ⟨rfl, rfl⟩ | ⟨rfl, rfl⟩⟩ := h
  · rfl
  · decide +kernel
  · decide +kernel

lemma value_of_equal {n : Int} {x : Float} (h : (Num.int n).equal (.float x) = true) :
    magnitudeBits x < infinityBits ∧ (decode x).value = n := by
  rw [equal, compare?] at h
  split at h
  · cases h
  · rename_i hnan
    split at h
    · split at h <;> cases h
    · rename_i hinf
      rw [isNaN_iff] at hnan
      rw [isInf_iff] at hinf
      refine ⟨by omega, (Dyadic.compareInt_eq_iff _ _).1 ?_⟩
      cases ho : (decode x).compareInt n <;> simp_all

lemma hasDigitsOfDouble_of_lt {n : Int} {x : Float} (h : (Num.int n).equal (.float x) = true)
    (hsafe : n.natAbs < 2 ^ 53) : HasDigitsOfDouble n := by
  obtain ⟨hfinite, hvalue⟩ := value_of_equal h
  refine ⟨hsafe.trans (by decide), fun m k hm hdvd => ?_⟩
  rcases eq_or_ne n 0 with rfl | hn
  · exact Int.dvd_zero _
  · rwa [← eq_of_ofInt?_eq hn hfinite (exists_bits_of_value hn hvalue).2 hsafe hm]

lemma text_int_eq_iff {n : Int} {x : Float} (h : (Num.int n).equal (.float x) = true) :
    toString n = plainLayout.text x ↔ HasDigitsOfDouble n := by
  obtain ⟨hfinite, hvalue⟩ := value_of_equal h
  rcases eq_or_ne n 0 with rfl | hn
  · have hzero : (decode x).significand = 0 := by
      rw [Dyadic.value, Dyadic.size] at hvalue
      split at hvalue <;> simpa [zpow_ne_zero] using hvalue
    rw [text_of_finite hfinite, if_pos hzero]
    exact iff_of_true rfl ⟨by decide, fun _ _ _ _ => Int.dvd_zero _⟩
  · exact text_eq_iff hn hfinite hvalue

/-- An integer that is equal to a double has no more digits than the largest double. -/
lemma isWritable_of_equal {n : Int} {x : Float} (h : (Num.int n).equal (.float x) = true) :
    (Num.int n).isWritable = true := by
  obtain ⟨hfinite, hvalue⟩ := value_of_equal h
  rcases eq_or_ne n 0 with rfl | hn
  · decide
  · have hpos := natAbs_pos.2 hn
    have hnearest := nearestBits_of_size hpos (exists_bits_of_value hn hvalue).2
    have hrange : n.natAbs < rangeLimit := by
      by_contra hlarge
      have hle := (infinityBits_le_nearestBits_iff hpos Nat.one_pos).2
        (by rw [Nat.cast_one, div_one]; exact_mod_cast not_lt.1 hlarge)
      omega
    rw [isWritable, decide_eq_true_eq]
    by_contra hlong
    have hle := pow_le_of_lt_decimalLength hpos (not_le.1 hlong)
    exact absurd (hle.trans_lt hrange) (Nat.not_lt.2 (rangeLimit_le_ten_pow (by decide)))

lemma add_text {a : Num} (h : a.isWritable = true) (s : Spelling) :
    Action.add (.num a) (.str s) = .ok (.str (a.text ++ s)) := by
  have hwrite : (Value.num a).write = .ok ↑a.text := if_pos h
  change (do return Value.str ((← (Value.num a).write) ++ s)) = _
  rw [hwrite]
  rfl

lemma add_text_eq_iff {a b : Num} (ha : a.isWritable = true) (hb : b.isWritable = true)
    (s : Spelling) :
    Action.add (.num a) (.str s) = Action.add (.num b) (.str s) ↔ a.text = b.text := by
  rw [add_text ha, add_text hb, Except.ok.injEq, Value.str.injEq, Spelling.append_left_inj,
    Spelling.ofString_inj]

/-- Equal numbers have the same text just if both are integers, both are doubles, or the integer has
the digits of its double, as every safe integer has. Concatenation tells the others apart. -/
theorem equal_numbers_text_iff {a b : Num} (h : a.equal b = true) :
    (a.text = b.text ↔
      a.isInt = b.isInt ∨ ∃ n, (a = .int n ∨ b = .int n) ∧ HasDigitsOfDouble n) ∧
    ((∀ n, a = .int n ∨ b = .int n → n.natAbs < 2 ^ 53) → a.text = b.text) ∧
    ∀ s, (Action.add (.num a) (.str s) = Action.add (.num b) (.str s) ↔ a.text = b.text) := by
  refine ⟨?_, ?_, fun s => ?_⟩
  · cases a with
    | int m =>
      cases b with
      | int n =>
        obtain rfl : m = n := by simpa [equal, compare?] using h
        simp
      | float y => simpa [text, isInt] using text_int_eq_iff h
    | float x =>
      cases b with
      | int n =>
        rw [equal_comm] at h
        simpa [text, isInt, eq_comm] using text_int_eq_iff h
      | float y => simpa [text, isInt] using text_of_equal h
  · intro hsafe
    cases a with
    | int m =>
      cases b with
      | int n =>
        obtain rfl : m = n := by simpa [equal, compare?] using h
        rfl
      | float y => exact (text_int_eq_iff h).2 (hasDigitsOfDouble_of_lt h (hsafe m (.inl rfl)))
    | float x =>
      cases b with
      | int n =>
        rw [equal_comm] at h
        exact ((text_int_eq_iff h).2 (hasDigitsOfDouble_of_lt h (hsafe n (.inr rfl)))).symm
      | float y => exact text_of_equal h
  · cases a with
    | int m =>
      cases b with
      | int n =>
        obtain rfl : m = n := by simpa [equal, compare?] using h
        exact iff_of_true rfl rfl
      | float y => exact add_text_eq_iff (isWritable_of_equal h) rfl s
    | float x =>
      cases b with
      | int n =>
        rw [equal_comm] at h
        exact add_text_eq_iff rfl (isWritable_of_equal h) s
      | float y => exact add_text_eq_iff rfl rfl s

theorem equal_numbers_text_iff_greatest :
    (Num.int 9007199254740991).equal (.float (.ofBits 0x433fffffffffffff)) = true ∧
    (Num.int 9007199254740991).text = (Num.float (.ofBits 0x433fffffffffffff)).text := by
  have h : (Num.int 9007199254740991).equal (.float (.ofBits 0x433fffffffffffff)) = true := by
    decide +kernel
  refine ⟨h, (equal_numbers_text_iff h).2.1 fun n hn => ?_⟩
  obtain ⟨⟨⟩⟩ | ⟨⟨⟩⟩ := hn
  decide

theorem equal_numbers_differ_in_text :
    (Num.int 1000000000000000000000).equal (.float (.ofBits 0x444b1ae4d6e2ef50)) = true ∧
    (Num.int 1000000000000000000000).text ≠ (Num.float (.ofBits 0x444b1ae4d6e2ef50)).text ∧
    (Num.int 18014398509481992).equal (.float (.ofBits 0x4350000000000002)) = true ∧
    (Num.int 18014398509481992).text ≠ (Num.float (.ofBits 0x4350000000000002)).text := by
  refine ⟨?_, ?_, ?_, ?_⟩ <;> decide +kernel

end Num

end Overload
