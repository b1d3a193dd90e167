import Mathlib
import Overload.Number.Basic

/-!
Doubles by their bits: infinities are those with all bits of the exponent set and none of the
fraction, and NaN is the one above them.
-/

namespace Overload.Number

open Float.Model

def magnitudeBits (x : Float) : Nat := x.toBits.toNat % Nat.pow 2 63

lemma exponent_eq_iff (n : Nat) :
    n / Nat.pow 2 52 % Nat.pow 2 11 = 2047 ↔ infinityBits ≤ n % Nat.pow 2 63 := by
  simp only [infinityBits, Nat.pow_eq]
  omega

lemma fraction_eq_iff {n : Nat} (h : infinityBits ≤ n % Nat.pow 2 63) :
    n % Nat.pow 2 52 = 0 ↔ n % Nat.pow 2 63 = infinityBits := by
  simp only [infinityBits, Nat.pow_eq] at *
  omega

lemma unpackExponent_eq_iff (b : BitVec 64) :
    @UnpackedFloat.unpackExponent Format.binary64 b = -1#11 ↔
      infinityBits ≤ b.toNat % Nat.pow 2 63 := by
  rw [← exponent_eq_iff, UnpackedFloat.unpackExponent_def, ← BitVec.toNat_inj,
    BitVec.extractLsb'_toNat, Nat.shiftRight_eq_div_pow]
  rfl

lemma unpackMantissa_eq_iff {b : BitVec 64} (h : infinityBits ≤ b.toNat % Nat.pow 2 63) :
    @UnpackedFloat.unpackMantissa Format.binary64 b = 0#52 ↔
      b.toNat % Nat.pow 2 63 = infinityBits := by
  rw [← fraction_eq_iff h, UnpackedFloat.unpackMantissa_def, ← BitVec.toNat_inj,
    BitVec.extractLsb'_toNat, Nat.shiftRight_zero]
  rfl

lemma infinite_or_nan_unpack {b : BitVec 64} (h : infinityBits ≤ b.toNat % Nat.pow 2 63) :
    (UnpackedFloat.unpack Format.binary64 b).isInf =
      decide (b.toNat % Nat.pow 2 63 = infinityBits) ∧
    (UnpackedFloat.unpack Format.binary64 b).isNaN =
      decide (b.toNat % Nat.pow 2 63 ≠ infinityBits) := by
  unfold UnpackedFloat.unpack
  rw [if_pos ((unpackExponent_eq_iff b).2 h)]
  simp only [unpackMantissa_eq_iff h]
  split_ifs with hm <;> simp [hm, UnpackedFloat.isInf, UnpackedFloat.isNaN]

lemma finite_unpack {b : BitVec 64} (h : b.toNat % Nat.pow 2 63 < infinityBits) :
    (UnpackedFloat.unpack Format.binary64 b).isInf = false ∧
    (UnpackedFloat.unpack Format.binary64 b).isNaN = false := by
  unfold UnpackedFloat.unpack
  rw [if_neg fun he => absurd ((unpackExponent_eq_iff b).1 he) (Nat.not_le.2 h)]
  dsimp only
  split_ifs <;> exact ⟨rfl, rfl⟩

lemma isInf_iff (x : Float) : x.isInf = true ↔ magnitudeBits x = infinityBits := by
  change (UnpackedFloat.unpack Format.binary64 x.toBits.toBitVec).isInf = true ↔
    x.toBits.toBitVec.toNat % Nat.pow 2 63 = infinityBits
  rcases Nat.lt_or_ge (x.toBits.toBitVec.toNat % Nat.pow 2 63) infinityBits with h | h
  · rw [(finite_unpack h).1]
    exact iff_of_false Bool.false_ne_true h.ne
  · rw [(infinite_or_nan_unpack h).1, decide_eq_true_eq]

lemma isNaN_iff (x : Float) : x.isNaN = true ↔ infinityBits < magnitudeBits x := by
  change (UnpackedFloat.unpack Format.binary64 x.toBits.toBitVec).isNaN = true ↔
    infinityBits < x.toBits.toBitVec.toNat % Nat.pow 2 63
  rcases Nat.lt_or_ge (x.toBits.toBitVec.toNat % Nat.pow 2 63) infinityBits with h | h
  · rw [(finite_unpack h).2]
    exact iff_of_false Bool.false_ne_true h.not_gt
  · rw [(infinite_or_nan_unpack h).2, decide_eq_true_eq]
    exact ⟨fun hne => lt_of_le_of_ne h hne.symm, ne_of_gt⟩

lemma toBits_ofBits {w : UInt64} (h : w.toNat % Nat.pow 2 63 ≤ infinityBits) :
    (Float.ofBits w).toBits = w := by
  have hnan : @UnpackedFloat.isNaNBits Format.binary64 w.toBitVec = false := by
    rw [UnpackedFloat.isNaNBits, decide_eq_false_iff_not]
    rintro ⟨hexp, hfrac⟩
    have hge := (unpackExponent_eq_iff w.toBitVec).1 hexp
    exact hfrac ((unpackMantissa_eq_iff hge).2 (le_antisymm h hge))
  apply UInt64.toBitVec_inj.1
  change UnpackedFloat.pack Format.binary64 (UnpackedFloat.unpack Format.binary64 w.toBitVec) = _
  rw [UnpackedFloat.pack_unpack, hnan]
  rfl

lemma magnitudeBits_signed {bits : Nat} (negative : Bool) (h : bits ≤ infinityBits) :
    magnitudeBits (signed negative bits) = bits := by
  have hbits : bits < 2 ^ 63 := lt_of_le_of_lt h (by decide)
  have hw : (UInt64.ofNat (if negative then Nat.pow 2 63 + bits else bits)).toNat % Nat.pow 2 63 =
      bits := by
    rw [UInt64.toNat_ofNat']
    simp only [Nat.pow_eq]
    split <;> omega
  rw [magnitudeBits, signed, toBits_ofBits (hw.le.trans h), hw]

lemma isInf_signed {bits : Nat} (negative : Bool) (h : bits ≤ infinityBits) :
    (signed negative bits).isInf = true ↔ bits = infinityBits := by
  rw [isInf_iff, magnitudeBits_signed negative h]

lemma isNaN_signed {bits : Nat} (negative : Bool) (h : bits ≤ infinityBits) :
    (signed negative bits).isNaN = false := by
  rw [Bool.eq_false_iff, Ne, isNaN_iff, magnitudeBits_signed negative h]
  exact Nat.not_lt.2 h

lemma isNaN_ofRatio (negative : Bool) (num den : Nat) :
    (ofRatio negative num den).isNaN = false := by
  rw [ofRatio]
  split
  · exact isNaN_signed negative (Nat.zero_le _)
  · exact isNaN_signed negative (Nat.min_le_right _ _)

end Overload.Number

namespace Overload.Num

def isNaN : Num → Bool
  | .int _ => false
  | .float x => x.isNaN

lemma isNaN_ofFloat {x : Float} (h : x.isNaN = false) : (ofFloat x).isNaN = false := by
  rw [ofFloat]
  split
  · rfl
  · exact h

end Overload.Num
