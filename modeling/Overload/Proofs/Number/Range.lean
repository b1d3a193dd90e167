import Overload.Proofs.Number.Doubles

/-! The range of doubles. -/

namespace Overload.Number

/-! ### Rounding to an integer -/

section RoundDiv

variable {a b k : Nat}

lemma div_le_roundDiv : a / b ≤ roundDiv a b := by
  unfold roundDiv
  dsimp only
  split_ifs <;> omega

lemma roundDiv_le_succ : roundDiv a b ≤ a / b + 1 := by
  unfold roundDiv
  dsimp only
  split_ifs <;> omega

lemma roundDiv_of_lt_half (h : 2 * (a % b) < b) : roundDiv a b = a / b := by
  simp [roundDiv, h]

lemma roundDiv_of_half_le (h : b ≤ 2 * (a % b)) (hodd : a / b % 2 = 1) :
    roundDiv a b = a / b + 1 := by
  unfold roundDiv
  dsimp only
  split_ifs <;> omega

lemma roundDiv_le (hb : 0 < b) (h : 2 * a < (2 * k + 1) * b) : roundDiv a b ≤ k := by
  rcases Nat.lt_trichotomy (a / b) k with hlt | heq | hgt
  · exact roundDiv_le_succ.trans hlt
  · have hmod := Nat.div_add_mod a b
    rw [heq] at hmod
    rw [roundDiv_of_lt_half, heq]
    nlinarith
  · have hmul : (k + 1) * b ≤ a := (Nat.le_div_iff_mul_le hb).1 hgt
    nlinarith

lemma lt_roundDiv (hb : 0 < b) (hk : k % 2 = 1) (h : (2 * k + 1) * b ≤ 2 * a) :
    k < roundDiv a b := by
  have hle : k ≤ a / b := by
    rw [Nat.le_div_iff_mul_le hb]
    nlinarith
  rcases Nat.eq_or_lt_of_le hle with rfl | hlt
  · have hmod := Nat.div_add_mod a b
    rw [roundDiv_of_half_le (by nlinarith) hk]
    exact Nat.lt_succ_self _
  · exact hlt.trans_le div_le_roundDiv

end RoundDiv

/-! ### The unit in the last place -/

variable {num den : Nat}

lemma scale_pos (hden : 0 < den) (num : Nat) (e : Int) : 0 < (scale num den e).2 := by
  rw [scale]
  split
  · exact Nat.mul_pos hden (Nat.pow_pos Nat.two_pos)
  · exact hden

lemma scale_ratio (num den : Nat) (e : Int) :
    ((scale num den e).1 : ℚ) / (scale num den e).2 = num / den / 2 ^ e := by
  rw [scale]
  split
  · rename_i he
    lift e to ℕ using he
    simp [div_div]
  · rename_i he
    obtain ⟨n, rfl⟩ : ∃ n : ℕ, e = -n := ⟨(-e).toNat, by omega⟩
    simp
    ring

lemma zpow_le_bitLength {n : Nat} (hn : 0 < n) : (2 : ℚ) ^ ((bitLength n : ℤ) - 1) ≤ n := by
  have := Nat.log2_self_le hn.ne'
  rw [bitLength, if_neg hn.ne']
  push_cast
  rw [add_sub_cancel_right, zpow_natCast]
  exact_mod_cast this

lemma lt_zpow_bitLength (n : Nat) : (n : ℚ) < 2 ^ (bitLength n : ℤ) := by
  rw [bitLength]
  split
  · rename_i hn
    simp [hn]
  · rw [zpow_natCast]
    exact_mod_cast Nat.lt_log2_self

lemma ratio_bounds (hnum : 0 < num) (hden : 0 < den) :
    (2 : ℚ) ^ ((bitLength num : ℤ) - bitLength den - 1) ≤ num / den ∧
      (num / den : ℚ) < 2 ^ ((bitLength num : ℤ) - bitLength den + 1) := by
  have hpos : (0 : ℚ) < den := by exact_mod_cast hden
  constructor
  · rw [le_div_iff₀ hpos]
    calc (2 : ℚ) ^ ((bitLength num : ℤ) - bitLength den - 1) * den
      _ ≤ 2 ^ ((bitLength num : ℤ) - bitLength den - 1) * 2 ^ (bitLength den : ℤ) := by
        gcongr
        exact (lt_zpow_bitLength den).le
      _ = 2 ^ ((bitLength num : ℤ) - 1) := by
        rw [← zpow_add₀ two_ne_zero]
        congr 1
        ring
      _ ≤ num := zpow_le_bitLength hnum
  · rw [div_lt_iff₀ hpos]
    calc (num : ℚ)
      _ < 2 ^ (bitLength num : ℤ) := lt_zpow_bitLength num
      _ = 2 ^ ((bitLength num : ℤ) - bitLength den + 1) * 2 ^ ((bitLength den : ℤ) - 1) := by
        rw [← zpow_add₀ two_ne_zero]
        congr 1
        ring
      _ ≤ 2 ^ ((bitLength num : ℤ) - bitLength den + 1) * den := by
        gcongr
        exact zpow_le_bitLength hden

lemma scale_div_lt_iff (hden : 0 < den) (num : Nat) (e : Int) (k : Nat) :
    (scale num den e).1 / (scale num den e).2 < Nat.pow 2 k ↔ (num / den : ℚ) < 2 ^ (e + k) := by
  have hpos : (0 : ℚ) < (scale num den e).2 := by exact_mod_cast scale_pos hden num e
  rw [Nat.div_lt_iff_lt_mul (scale_pos hden num e), zpow_add₀ two_ne_zero,
    ← div_lt_iff₀' (by positivity), ← scale_ratio,
    div_lt_iff₀ hpos, zpow_natCast]
  exact_mod_cast Iff.rfl

lemma unitExponent_cases (hnum : 0 < num) (hden : 0 < den) : ∃ e : ℤ,
    unitExponent num den = max e (-1074) ∧ (2 : ℚ) ^ (e + 52) ≤ num / den ∧
      (num / den : ℚ) < 2 ^ (e + 53) := by
  obtain ⟨hlow, hhigh⟩ := ratio_bounds hnum hden
  generalize hg : (bitLength num : ℤ) - bitLength den - 53 = g
  have hiff : _ ↔ (num / den : ℚ) < 2 ^ (g + 53) := scale_div_lt_iff hden num g 53
  have hunit : unitExponent num den = max (if (scale num den g).1 / (scale num den g).2 <
      Nat.pow 2 53 then g else g + 1) (-1074) := by
    rw [unitExponent, hg]
  rw [hunit]
  split
  · rename_i h
    have hlow' : g + 52 = (bitLength num : ℤ) - bitLength den - 1 := by omega
    exact ⟨g, rfl, hlow' ▸ hlow, hiff.1 h⟩
  · rename_i h
    have hlow' : g + 1 + 52 = g + 53 := by omega
    have hhigh' : g + 1 + 53 = (bitLength num : ℤ) - bitLength den + 1 := by omega
    exact ⟨g + 1, rfl, hlow' ▸ not_lt.1 fun hlt => h (hiff.2 hlt), hhigh' ▸ hhigh⟩

lemma lt_zpow_unitExponent (hnum : 0 < num) (hden : 0 < den) :
    (num / den : ℚ) < 2 ^ (unitExponent num den + 53) := by
  obtain ⟨e, he, -, hlt⟩ := unitExponent_cases hnum hden
  refine hlt.trans_le (zpow_le_zpow_right₀ one_le_two ?_)
  omega

lemma zpow_unitExponent_le (hnum : 0 < num) (hden : 0 < den) (h : -1074 < unitExponent num den) :
    (2 : ℚ) ^ (unitExponent num den + 52) ≤ num / den := by
  obtain ⟨e, he, hle, -⟩ := unitExponent_cases hnum hden
  have : unitExponent num den = e := by omega
  rwa [this]

/-! ### The range of doubles -/

/-- The middle between the greatest finite double and the power of two above it. -/
def rangeLimit : Nat := 2 ^ 1024 - 2 ^ 970

lemma two_pow_le_rangeLimit : 2 ^ 53 ≤ rangeLimit := by decide +kernel

lemma one_lt_rangeLimit : 1 < rangeLimit := Nat.lt_of_lt_of_le (by decide) two_pow_le_rangeLimit

lemma rangeLimit_pos : 0 < rangeLimit := Nat.lt_of_succ_lt one_lt_rangeLimit

lemma rangeLimit_le_ten_pow {k : Nat} (h : 400 ≤ k) : rangeLimit ≤ 10 ^ k :=
  calc rangeLimit ≤ 10 ^ 400 := by decide +kernel
    _ ≤ 10 ^ k := Nat.pow_le_pow_right (by decide) h

def roundedUnits (num den : Nat) : Nat :=
  roundDiv (scale num den (unitExponent num den)).1 (scale num den (unitExponent num den)).2

def nearestBits (num den : Nat) : Nat :=
  if roundedUnits num den < Nat.pow 2 52 then roundedUnits num den
  else (unitExponent num den + 1075).toNat * Nat.pow 2 52 + (roundedUnits num den - Nat.pow 2 52)

lemma ofRatio_eq_signed (negative : Bool) (hnum : 0 < num) (den : Nat) :
    ofRatio negative num den = signed negative (min (nearestBits num den) infinityBits) := by
  rw [ofRatio, if_neg hnum.ne']
  rfl

lemma scale_lt_half_iff (hden : 0 < den) (num k : Nat) (e : ℤ) :
    2 * (scale num den e).1 < (2 * k + 1) * (scale num den e).2 ↔
      (num / den : ℚ) < (k + 1 / 2) * 2 ^ e := by
  have hpos : (0 : ℚ) < (scale num den e).2 := by exact_mod_cast scale_pos hden num e
  rw [← div_lt_iff₀ (by positivity), ← scale_ratio, div_lt_iff₀ hpos, ← @Nat.cast_lt ℚ]
  push_cast
  constructor <;> intro h <;> linarith

lemma cast_rangeLimit :
    (rangeLimit : ℚ) = (((2 ^ 53 - 1 : ℕ) : ℚ) + 1 / 2) * 2 ^ (971 : ℤ) := by
  have hnat : rangeLimit = (2 ^ 54 - 1) * 2 ^ 970 := by
    rw [rangeLimit, Nat.sub_mul, ← pow_add, one_mul]
  have hpow : (2 : ℚ) ^ (971 : ℤ) = 2 * 2 ^ 970 := by
    rw [← pow_succ']
    rfl
  rw [hnat, hpow, Nat.cast_mul, Nat.cast_pow, Nat.cast_two]
  generalize (2 : ℚ) ^ 970 = t
  norm_num
  ring

lemma unitExponent_le (hnum : 0 < num) (hden : 0 < den) (h : (num / den : ℚ) < rangeLimit) :
    unitExponent num den ≤ 971 := by
  by_contra hgt
  have hle := zpow_unitExponent_le hnum hden (by omega)
  have hpow : (2 : ℚ) ^ (53 : ℤ) * 2 ^ (971 : ℤ) ≤ 2 ^ (unitExponent num den + 52) := by
    rw [← zpow_add₀ two_ne_zero]
    exact zpow_le_zpow_right₀ one_le_two (by omega)
  have hpos : (0 : ℚ) < 2 ^ (971 : ℤ) := by positivity
  rw [cast_rangeLimit] at h
  generalize (2 : ℚ) ^ (971 : ℤ) = t at *
  norm_num at h hpow
  linarith

lemma le_unitExponent (hnum : 0 < num) (hden : 0 < den) (h : rangeLimit ≤ (num / den : ℚ)) :
    971 ≤ unitExponent num den := by
  by_contra hlt
  have hle := lt_zpow_unitExponent hnum hden
  have hpow : 2 ^ (unitExponent num den + 53) ≤ (2 : ℚ) ^ (52 : ℤ) * 2 ^ (971 : ℤ) := by
    rw [← zpow_add₀ two_ne_zero]
    exact zpow_le_zpow_right₀ one_le_two (by omega)
  have hpos : (0 : ℚ) < 2 ^ (971 : ℤ) := by positivity
  rw [cast_rangeLimit] at h
  generalize (2 : ℚ) ^ (971 : ℤ) = t at *
  norm_num at h hpow
  linarith

lemma roundedUnits_le (hnum : 0 < num) (hden : 0 < den) : roundedUnits num den ≤ 2 ^ 53 := by
  apply roundDiv_le (scale_pos hden num _)
  rw [scale_lt_half_iff hden]
  have hlt := lt_zpow_unitExponent hnum hden
  have hpos : (0 : ℚ) < 2 ^ unitExponent num den := by positivity
  rw [zpow_add₀ two_ne_zero] at hlt
  norm_num at hlt ⊢
  linarith

lemma le_roundedUnits (hnum : 0 < num) (hden : 0 < den) (h : -1074 < unitExponent num den) :
    2 ^ 52 ≤ roundedUnits num den := by
  refine le_trans (not_lt.1 fun hlt => ?_) div_le_roundDiv
  have hratio := (scale_div_lt_iff hden num _ 52).1 hlt
  exact absurd hratio (not_lt.2 (zpow_unitExponent_le hnum hden h))

lemma roundedUnits_lt_iff (hden : 0 < den) (h : unitExponent num den = 971) :
    roundedUnits num den < 2 ^ 53 ↔ (num / den : ℚ) < rangeLimit := by
  have hb := scale_pos hden num (unitExponent num den)
  have hiff := scale_lt_half_iff hden num (2 ^ 53 - 1) (unitExponent num den)
  rw [cast_rangeLimit, ← h, ← hiff]
  constructor
  · intro hlt
    by_contra hle
    have := lt_roundDiv hb (by norm_num) (not_lt.1 hle)
    exact absurd hlt (not_lt.2 this)
  · intro hlt
    exact Nat.lt_of_le_pred (by norm_num) (roundDiv_le hb hlt)

lemma infinityBits_le_nearestBits_iff (hnum : 0 < num) (hden : 0 < den) :
    infinityBits ≤ nearestBits num den ↔ rangeLimit ≤ (num / den : ℚ) := by
  have hupper := roundedUnits_le hnum hden
  rw [nearestBits, infinityBits]
  simp only [Nat.pow_eq]
  constructor
  · intro h
    by_contra hlt
    rw [not_le] at hlt
    have he := unitExponent_le hnum hden hlt
    have hcarry := fun h => (roundedUnits_lt_iff hden h).2 hlt
    split_ifs at h <;> omega
  · intro h
    have he := le_unitExponent hnum hden h
    have hlower := le_roundedUnits hnum hden (by omega)
    have hcarry := fun he => mt (roundedUnits_lt_iff hden he).1 (not_lt.2 h)
    split_ifs <;> omega

lemma isInf_ofRatio_iff (negative : Bool) (num : Nat) (hden : 0 < den) :
    (ofRatio negative num den).isInf = true ↔ rangeLimit * den ≤ num := by
  have hpos : (0 : ℚ) < den := by exact_mod_cast hden
  rcases Nat.eq_zero_or_pos num with rfl | hnum
  · have hlimit : 0 < rangeLimit * den := Nat.mul_pos rangeLimit_pos hden
    rw [ofRatio, if_pos rfl, isInf_signed negative (Nat.zero_le _)]
    exact iff_of_false (by decide) (Nat.not_le.2 hlimit)
  · rw [ofRatio_eq_signed negative hnum, isInf_signed negative (Nat.min_le_right _ _),
      min_eq_right_iff, infinityBits_le_nearestBits_iff hnum hden, le_div_iff₀ hpos]
    exact_mod_cast Iff.rfl

lemma ofInt?_eq_none_iff (n : Int) : ofInt? n = none ↔ rangeLimit ≤ n.natAbs := by
  rw [ofInt?, ← Nat.mul_one rangeLimit, ← isInf_ofRatio_iff (n < 0) n.natAbs Nat.one_pos]
  simp

lemma ofQuotient?_eq_none_iff (x : Int) {y : Int} (hy : y ≠ 0) :
    ofQuotient? x y = none ↔ rangeLimit * y.natAbs ≤ x.natAbs := by
  rw [ofQuotient?, ← isInf_ofRatio_iff (decide (x < 0) != decide (y < 0)) x.natAbs
    (Int.natAbs_pos.2 hy)]
  simp

end Overload.Number
