import Overload.Number.Shortest
import Overload.Proofs.Number.Range

/-! Rounding to doubles. -/

namespace Overload.Number

open Nat

variable {bits bits' : Nat}

/-! ### The value of a double -/

lemma pow_toNat {b : ℚ} (hb : b ≠ 0) (e : ℤ) : b ^ e.toNat = b ^ e * b ^ (-e).toNat := by
  rw [← zpow_natCast, ← zpow_natCast, ← zpow_add₀ hb]
  congr 1
  omega

namespace Dyadic

def size (d : Dyadic) : ℚ := d.significand * 2 ^ d.exponent

def value (d : Dyadic) : ℚ := if d.negative then -d.size else d.size

lemma numerator_eq (d : Dyadic) : (d.numerator : ℚ) = d.value * 2 ^ d.shift := by
  have hsize : ((d.significand * Nat.pow 2 d.exponent.toNat : ℕ) : ℚ) = d.size * 2 ^ d.shift := by
    rw [Nat.pow_eq, size, shift, mul_assoc, ← pow_toNat two_ne_zero]
    push_cast
    rfl
  rw [numerator, value]
  split
  · rw [Int.cast_neg, Int.cast_natCast, hsize, neg_mul]
  · rw [Int.cast_natCast, hsize]

lemma compareInt_eq_iff (d : Dyadic) (n : Int) : d.compareInt n = .eq ↔ d.value = n := by
  have hpos : (2 : ℚ) ^ d.shift ≠ 0 := by positivity
  have hpow : ((n * Int.pow 2 d.shift : ℤ) : ℚ) = n * 2 ^ d.shift := by
    rw [Int.pow_eq]
    push_cast
    rfl
  rw [compareInt, compare_eq_iff_eq, ← @Int.cast_inj ℚ, numerator_eq, hpow, mul_left_inj' hpos]

lemma integral_of_size {d : Dyadic} {n : Nat} (h : d.size = n) :
    d.isInteger = true ∧ d.truncate = if d.negative then -(n : Int) else n := by
  rw [isInteger, truncate]
  by_cases he : 0 ≤ d.exponent
  · have hn : d.significand * Nat.pow 2 d.exponent.toNat = n := by
      rw [← @Nat.cast_inj ℚ, ← h, size, Nat.pow_eq]
      push_cast
      rw [← zpow_natCast, Int.toNat_of_nonneg he]
    simp only [he, if_pos, hn, decide_true, Bool.true_or, and_self]
  · have hn : d.significand = n * Nat.pow 2 (-d.exponent).toNat := by
      rw [← @Nat.cast_inj ℚ, Nat.pow_eq]
      push_cast
      rw [← h, size, mul_assoc, ← pow_toNat two_ne_zero, Int.toNat_of_nonpos (by omega)]
      simp
    have hpos : 0 < Nat.pow 2 (-d.exponent).toNat := Nat.pow_pos Nat.two_pos
    simp only [he, hn, mul_mod_left, Nat.mul_div_cancel _ hpos]
    simp

end Dyadic

def ofMagnitude (negative : Bool) (bits : Nat) : Dyadic :=
  if bits < 2 ^ 52 then ⟨negative, bits, -1074⟩
  else ⟨negative, bits % 2 ^ 52 + 2 ^ 52, (bits / 2 ^ 52 : Nat) - 1075⟩

lemma decode_eq (x : Float) : decode x = ofMagnitude (signBit x) (magnitudeBits x) := by
  have hbiased : x.toBits.toNat / 2 ^ 52 % 2 ^ 11 = x.toBits.toNat % 2 ^ 63 / 2 ^ 52 := by omega
  have hfraction : x.toBits.toNat % 2 ^ 63 % 2 ^ 52 = x.toBits.toNat % 2 ^ 52 := by omega
  simp only [decode, ofMagnitude, magnitudeBits, Nat.pow_eq, hbiased, hfraction,
    Nat.div_eq_zero_iff]
  split <;> split <;> first | omega | rfl | (congr 1; omega)

lemma toBits_signed (negative : Bool) (h : bits ≤ infinityBits) :
    (signed negative bits).toBits.toNat = if negative then Nat.pow 2 63 + bits else bits := by
  have hbits : bits < 2 ^ 63 := lt_of_le_of_lt h (by decide)
  have hw : (UInt64.ofNat (if negative then Nat.pow 2 63 + bits else bits)).toNat =
      if negative then Nat.pow 2 63 + bits else bits := by
    rw [UInt64.toNat_ofNat']
    simp only [Nat.pow_eq]
    split <;> omega
  rw [signed, toBits_ofBits, hw]
  rw [hw]
  simp only [Nat.pow_eq]
  split <;> omega

lemma signBit_signed (negative : Bool) (h : bits ≤ infinityBits) :
    signBit (signed negative bits) = negative := by
  have hbits : bits < 2 ^ 63 := lt_of_le_of_lt h (by decide)
  rw [signBit, toBits_signed negative h]
  cases negative <;> simp only [Nat.pow_eq, if_true, Bool.false_eq_true, if_false]
  · rw [div_eq_of_lt hbits]
    rfl
  · rw [add_div_left _ (by decide), div_eq_of_lt hbits]
    rfl

lemma decode_signed (negative : Bool) (h : bits ≤ infinityBits) :
    decode (signed negative bits) = ofMagnitude negative bits := by
  rw [decode_eq, signBit_signed negative h, magnitudeBits_signed negative h]

/-! ### Intervals of doubles -/

namespace Interval

def lower (i : Interval) : ℚ := i.low * 2 ^ i.unit

def upper (i : Interval) : ℚ := i.high * 2 ^ i.unit

def Has (i : Interval) (q : ℚ) : Prop :=
  (i.lower < q ∨ i.closed = true ∧ q = i.lower) ∧ (q < i.upper ∨ i.closed = true ∧ q = i.upper)

end Interval

namespace Dyadic

def below (d : Dyadic) : ℚ := if d.significand = 2 ^ 52 ∧ -1074 < d.exponent then 1 / 4 else 1 / 2

lemma below_bounds (d : Dyadic) : 1 / 4 ≤ d.below ∧ d.below ≤ 1 / 2 := by
  rw [below]
  split <;> norm_num

lemma zpow_interval (d : Dyadic) : (2 : ℚ) ^ d.interval.unit = 2 ^ d.exponent / 4 := by
  rw [interval, zpow_sub₀ two_ne_zero]
  norm_num

lemma upper_interval (d : Dyadic) : d.interval.upper = (d.significand + 1 / 2) * 2 ^ d.exponent := by
  rw [Interval.upper, zpow_interval, interval]
  push_cast
  ring

lemma lower_interval {d : Dyadic} (h : 0 < d.significand) :
    d.interval.lower = (d.significand - d.below) * 2 ^ d.exponent := by
  rw [Interval.lower, zpow_interval, below, interval]
  simp only [Nat.pow_eq]
  split
  · rw [Nat.cast_sub (by omega)]
    push_cast
    ring
  · rw [Nat.cast_sub (by omega)]
    push_cast
    ring

end Dyadic

def intervalOf (bits : Nat) : Interval := (ofMagnitude false bits).interval

lemma closed_intervalOf (bits : Nat) : (intervalOf bits).closed = true ↔ bits % 2 = 0 := by
  rw [intervalOf, Dyadic.interval, ofMagnitude]
  split
  · simp
  · simp
    omega

lemma lower_lt_upper (bits : Nat) : (intervalOf bits).lower < (intervalOf bits).upper := by
  have hpos : (0 : ℚ) < 2 ^ (intervalOf bits).unit := by positivity
  refine mul_lt_mul_of_pos_right (Nat.cast_lt.2 ?_) hpos
  simp only [intervalOf, Dyadic.interval]
  split <;> omega

lemma ofMagnitude_succ (negative : Bool) (bits : Nat) :
    ∃ s e, ofMagnitude negative bits = ⟨negative, s, e⟩ ∧ -1074 ≤ e ∧
      (s < 2 ^ 53 - 1 ∧ (2 ^ 52 ≤ s ∨ e = -1074) ∧
        ofMagnitude negative (bits + 1) = ⟨negative, s + 1, e⟩ ∨
      s = 2 ^ 53 - 1 ∧ ofMagnitude negative (bits + 1) = ⟨negative, 2 ^ 52, e + 1⟩) := by
  rcases Nat.lt_trichotomy (bits + 1) (2 ^ 52) with hlt | heq | hgt
  · refine ⟨_, _, if_pos (by omega), le_rfl, .inl ⟨by omega, .inr rfl, if_pos hlt⟩⟩
  · refine ⟨_, _, if_pos (by omega), le_rfl, .inl ⟨by omega, .inr rfl, ?_⟩⟩
    rw [ofMagnitude, if_neg (by omega), heq]
    rfl
  · refine ⟨_, _, if_neg (by omega), by omega, ?_⟩
    rw [ofMagnitude, if_neg (by omega)]
    simp only [Dyadic.mk.injEq, true_and]
    omega

lemma upper_eq_lower (bits : Nat) : (intervalOf bits).upper = (intervalOf (bits + 1)).lower := by
  obtain ⟨s, e, heq, hmin, ⟨hlt, hnormal, hnext⟩ | ⟨rfl, hnext⟩⟩ := ofMagnitude_succ false bits
  · rw [intervalOf, intervalOf, heq, hnext, Dyadic.upper_interval,
      Dyadic.lower_interval (succ_pos _), Dyadic.below, if_neg (by dsimp only; omega)]
    push_cast
    ring
  · rw [intervalOf, intervalOf, heq, hnext, Dyadic.upper_interval,
      Dyadic.lower_interval (Nat.pow_pos Nat.two_pos), Dyadic.below,
      if_pos ⟨rfl, by dsimp only; omega⟩, zpow_add_one₀ two_ne_zero]
    norm_num
    ring

lemma upper_le_lower (h : bits < bits') : (intervalOf bits).upper ≤ (intervalOf bits').lower := by
  induction bits', h using le_induction with
  | base => exact (upper_eq_lower bits).le
  | succ k hk ih => exact ih.trans ((lower_lt_upper k).le.trans (upper_eq_lower k).le)

lemma not_has_of_lt (h : bits < bits') {q : ℚ} (hq : (intervalOf bits).Has q) :
    ¬ (intervalOf bits').Has q := by
  intro hq'
  have hle := upper_le_lower h
  obtain ⟨-, hupper | ⟨hclosed, hupper⟩⟩ := hq
  · obtain ⟨hlower | ⟨-, hlower⟩, -⟩ := hq' <;> linarith
  · obtain ⟨hlower | ⟨hclosed', hlower⟩, -⟩ := hq'
    · linarith
    · -- Two even numbers have an odd one between them, whose interval is not empty.
      rw [closed_intervalOf] at hclosed hclosed'
      have hnext : (intervalOf (bits + 1)).upper ≤ (intervalOf bits').lower :=
        upper_le_lower (by omega)
      have := lower_lt_upper (bits + 1)
      rw [← upper_eq_lower] at this
      linarith

lemma Has.unique {q : ℚ} (h : (intervalOf bits).Has q) (h' : (intervalOf bits').Has q) :
    bits = bits' := by
  rcases Nat.lt_trichotomy bits bits' with hlt | heq | hgt
  · exact absurd h' (not_has_of_lt hlt h)
  · exact heq
  · exact absurd h (not_has_of_lt hgt h')

/-! ### The nearest double -/

def RoundsTo (q : ℚ) (m : Nat) : Prop :=
  (m - 1 / 2 < q ∨ m % 2 = 0 ∧ q = m - 1 / 2) ∧ (q < m + 1 / 2 ∨ m % 2 = 0 ∧ q = m + 1 / 2)

lemma roundsTo_roundDiv (a : Nat) {b : Nat} (hb : 0 < b) : RoundsTo (a / b) (roundDiv a b) := by
  have hb' : (0 : ℚ) < b := by exact_mod_cast hb
  have hmod : a % b < b := mod_lt a hb
  have hdiv : (b * (a / b : ℕ) + (a % b : ℕ) : ℚ) = a := by exact_mod_cast div_add_mod a b
  simp only [RoundsTo, lt_div_iff₀ hb', div_lt_iff₀ hb', div_eq_iff hb'.ne', ← hdiv, roundDiv]
  generalize a / b = q, a % b = r at *
  split_ifs with hlt hgt heven
  · have hlt' : (2 * r : ℚ) < b := by exact_mod_cast hlt
    have hr : (0 : ℚ) ≤ r := Nat.cast_nonneg r
    exact ⟨.inl (by linarith), .inl (by linarith)⟩
  · have hgt' : (b : ℚ) < 2 * r := by exact_mod_cast hgt
    have hr : (r : ℚ) < b := by exact_mod_cast hmod
    push_cast
    exact ⟨.inl (by linarith), .inl (by linarith)⟩
  · have heq : (2 * r : ℚ) = b := by exact_mod_cast (show 2 * r = b by omega)
    exact ⟨.inl (by linarith), .inr ⟨heven, by linarith⟩⟩
  · have heq : (2 * r : ℚ) = b := by exact_mod_cast (show 2 * r = b by omega)
    push_cast
    exact ⟨.inr ⟨by omega, by linarith⟩, .inl (by linarith)⟩

section Nearest

variable {num den : Nat}

lemma le_unitExponent_of (num den : Nat) : -1074 ≤ unitExponent num den := le_max_right _ _

lemma ofMagnitude_nearestBits (hnum : 0 < num) (hden : 0 < den) (negative : Bool) :
    ofMagnitude negative (nearestBits num den) =
        ⟨negative, roundedUnits num den, unitExponent num den⟩ ∨
      roundedUnits num den = 2 ^ 53 ∧ ofMagnitude negative (nearestBits num den) =
        ⟨negative, 2 ^ 52, unitExponent num den + 1⟩ := by
  have hmin := le_unitExponent_of num den
  have hmax := roundedUnits_le hnum hden
  have hnormal := le_roundedUnits hnum hden
  simp only [nearestBits, ofMagnitude, Nat.pow_eq]
  generalize roundedUnits num den = m, unitExponent num den = u at *
  obtain ⟨k, rfl⟩ : ∃ k : ℕ, u = k - 1074 := ⟨(u + 1074).toNat, by omega⟩
  have hk : ((k : ℤ) - 1074 + 1075).toNat = k + 1 := by omega
  rw [hk]
  by_cases hsub : m < 2 ^ 52
  · rw [if_pos hsub, if_pos hsub]
    simp only [Dyadic.mk.injEq, true_and]
    omega
  · rw [if_neg hsub, if_neg (by omega)]
    simp only [Dyadic.mk.injEq, true_and]
    omega

lemma size_nearestBits (hnum : 0 < num) (hden : 0 < den) (negative : Bool) :
    (ofMagnitude negative (nearestBits num den)).size =
      roundedUnits num den * 2 ^ unitExponent num den := by
  obtain heq | ⟨hm, heq⟩ := ofMagnitude_nearestBits hnum hden negative
  · rw [heq, Dyadic.size]
  · rw [heq, Dyadic.size, hm, zpow_add_one₀ two_ne_zero]
    norm_num
    ring

lemma roundsTo_roundedUnits (num : Nat) (hden : 0 < den) :
    RoundsTo (num / den / 2 ^ unitExponent num den) (roundedUnits num den) := by
  rw [← scale_ratio, roundedUnits]
  exact roundsTo_roundDiv _ (scale_pos hden num _)

lemma has_nearestBits (hnum : 0 < num) (hden : 0 < den) :
    (intervalOf (nearestBits num den)).Has (num / den) := by
  have ht : (0 : ℚ) < 2 ^ unitExponent num den := by positivity
  have hratio : (0 : ℚ) < num / den := by positivity
  have hle := zpow_unitExponent_le hnum hden
  have hlt := lt_zpow_unitExponent hnum hden
  obtain ⟨hlow, hhigh⟩ := roundsTo_roundedUnits num hden
  rw [zpow_add₀ two_ne_zero] at hle hlt
  rw [lt_div_iff₀ ht, div_eq_iff ht.ne'] at hlow
  rw [div_lt_iff₀ ht, div_eq_iff ht.ne'] at hhigh
  rw [intervalOf, Interval.Has, Dyadic.upper_interval]
  obtain heq | ⟨hm, heq⟩ := ofMagnitude_nearestBits hnum hden false
  · rw [heq]
    refine ⟨?_, hhigh.imp_right (And.imp_left decide_eq_true)⟩
    rcases Nat.eq_zero_or_pos (roundedUnits num den) with hzero | hpos
    · left
      simpa [Interval.lower, Dyadic.interval, hzero] using hratio
    · rw [Dyadic.lower_interval hpos, Dyadic.below]
      split_ifs with hedge
      · -- Nothing below a power of two is as wide as its unit.
        left
        have hle := hle hedge.2
        dsimp only at hedge ⊢
        rw [hedge.1]
        norm_num at hle ⊢
        linarith
      · exact hlow.imp_right (And.imp_left decide_eq_true)
  · rw [heq, Dyadic.lower_interval (Nat.pow_pos Nat.two_pos), Dyadic.below,
      if_pos ⟨rfl, by dsimp only; have := le_unitExponent_of num den; omega⟩]
    rw [hm] at hlow
    dsimp only
    rw [zpow_add_one₀ two_ne_zero]
    norm_num at hlow hlt ⊢
    refine ⟨hlow.imp (fun h => by linarith) fun h => ⟨decide_eq_true (by norm_num), by linarith⟩,
      .inl (by linarith)⟩

lemma nearestBits_eq_iff (hnum : 0 < num) (hden : 0 < den) :
    nearestBits num den = bits ↔ (intervalOf bits).Has (num / den) :=
  ⟨fun h => h ▸ has_nearestBits hnum hden, Has.unique (has_nearestBits hnum hden)⟩

end Nearest

end Overload.Number
