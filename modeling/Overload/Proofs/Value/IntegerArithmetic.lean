import Overload.Proofs.Failing
import Overload.Proofs.Number.SafeInteger

/-! Arithmetic of integers. -/

namespace Overload

open Int

/-! ### Zeros of doubles -/

namespace Number

open Float.Model

def modelSign (negative : Bool) : UnpackedFloat.Sign := if negative then .negative else .positive

lemma unpackSign_eq {negative : Bool} {bits : Nat} {b : BitVec 64} (h : bits < 2 ^ 63)
    (hb : b.toNat = if negative then Nat.pow 2 63 + bits else bits) :
    UnpackedFloat.Sign.ofBitVec (@UnpackedFloat.unpackSign Format.binary64 b) = modelSign negative := by
  have hsign : @UnpackedFloat.unpackSign Format.binary64 b = BitVec.ofBool negative := by
    rw [UnpackedFloat.unpackSign_def, ← BitVec.toNat_inj, BitVec.extractLsb'_toNat,
      Nat.shiftRight_eq_div_pow, hb]
    change (if negative then Nat.pow 2 63 + bits else bits) / 2 ^ 63 % 2 ^ 1 = _
    simp only [Nat.pow_eq, BitVec.toNat_ofBool]
    cases negative
    · simp only [Bool.false_eq_true, if_false, Bool.toNat_false]
      omega
    · simp only [if_true, Bool.toNat_true]
      omega
  rw [hsign]
  cases negative <;> rfl

lemma unpack_signed {bits : Nat} (negative : Bool) (h : bits < infinityBits) (hne : bits ≠ 0) :
    ∃ m e hm, (signed negative bits).toModel.unpack = .finite (modelSign negative) m e hm := by
  have hbits : bits < 2 ^ 63 := h.trans (by decide)
  have hb := toBits_signed negative h.le
  change (signed negative bits).toBits.toBitVec.toNat = _ at hb
  have hmod : (signed negative bits).toBits.toBitVec.toNat % Nat.pow 2 63 = bits :=
    magnitudeBits_signed negative h.le
  change ∃ m e hm, UnpackedFloat.unpack Format.binary64 (signed negative bits).toBits.toBitVec = _
  generalize (signed negative bits).toBits.toBitVec = b at *
  unfold UnpackedFloat.unpack
  rw [if_neg fun he => absurd ((unpackExponent_eq_iff b).1 he) (by omega)]
  simp only [unpackSign_eq hbits hb]
  split_ifs with hexp hfrac
  · rw [UnpackedFloat.unpackExponent_def, ← BitVec.toNat_inj, BitVec.extractLsb'_toNat,
      Nat.shiftRight_eq_div_pow] at hexp
    rw [UnpackedFloat.unpackMantissa_def, ← BitVec.toNat_inj, BitVec.extractLsb'_toNat,
      Nat.shiftRight_zero] at hfrac
    change b.toNat / 2 ^ 52 % 2 ^ 11 = 0 at hexp
    change b.toNat % 2 ^ 52 = 0 at hfrac
    rw [Nat.pow_eq] at hmod
    omega
  · exact ⟨_, _, Nat.pos_of_ne_zero fun hzero => hfrac (BitVec.eq_of_toNat_eq hzero), rfl⟩
  · refine ⟨_, _, ?_, rfl⟩
    rw [BitVec.toNat_append]
    exact lt_of_lt_of_le (by decide) Nat.left_le_or

lemma unpack_zero (negative : Bool) :
    (signed negative 0).toModel.unpack = .zero (modelSign negative) := by
  cases negative <;> rfl

lemma aligned_eq (d : Dyadic) {low : ℤ} (h : low ≤ d.exponent) :
    ((d.significand * Nat.pow 2 (d.exponent - low).toNat : ℕ) : ℚ) = d.size / 2 ^ low := by
  rw [Nat.pow_eq, Dyadic.size, mul_div_assoc, ← zpow_sub₀ two_ne_zero]
  push_cast
  rw [← zpow_natCast, toNat_of_nonneg (by omega)]

lemma beq_zero_signed (negative : Bool) {bits : Nat} (h : bits < infinityBits) {n : Nat}
    (hsize : (ofMagnitude negative bits).size = n) (hn : n ≠ 0) :
    bits ≠ 0 ∧ (signed negative bits == 0.0) = false := by
  have hne : bits ≠ 0 := by
    rintro rfl
    rw [ofMagnitude, if_pos (by decide), Dyadic.size, Nat.cast_zero, zero_mul] at hsize
    exact hn (Nat.cast_injective hsize.symm)
  refine ⟨hne, Bool.eq_false_iff.2 fun hbeq => hne ?_⟩
  rw [← magnitudeBits_signed negative h.le, magnitudeBits_of_beq_zero hbeq]

section Zeros

variable (s t : Bool) {bits bits' : Nat} (h : bits < infinityBits) (h' : bits' < infinityBits)
include h'

lemma zero_div_signed (hne : bits' ≠ 0) : signed s 0 / signed t bits' = signed (s != t) 0 := by
  obtain ⟨m, e, hm, heq⟩ := unpack_signed t h' hne
  change Float.ofModel (pack (UnpackedFloat.div _ (signed s 0).toModel.unpack
    (signed t bits').toModel.unpack)) = _
  rw [heq, unpack_zero]
  cases s <;> cases t <;> rfl

include h

lemma signed_mul_signed (hzero : bits = 0 ∨ bits' = 0) :
    signed s bits * signed t bits' = signed (s != t) 0 := by
  change Float.ofModel (pack (UnpackedFloat.mul _ (signed s bits).toModel.unpack
    (signed t bits').toModel.unpack)) = _
  rcases eq_or_ne bits 0 with rfl | hne
  · rw [unpack_zero]
    rcases eq_or_ne bits' 0 with rfl | hne'
    · rw [unpack_zero]
      cases s <;> cases t <;> rfl
    · obtain ⟨m, e, hm, heq⟩ := unpack_signed t h' hne'
      rw [heq]
      cases s <;> cases t <;> rfl
  · obtain ⟨m, e, hm, heq⟩ := unpack_signed s h hne
    obtain rfl := hzero.resolve_left hne
    rw [heq, unpack_zero]
    cases s <;> cases t <;> rfl

lemma remainder_signed {x y : Nat} (hx : (ofMagnitude s bits).size = x)
    (hy : (ofMagnitude t bits').size = y) (hdvd : y ∣ x) :
    remainder (signed s bits) (signed t bits') = signed s 0 := by
  obtain ⟨q, rfl⟩ := hdvd
  simp only [remainder, decode_signed _ h.le, decode_signed _ h'.le]
  generalize hlow : min (ofMagnitude s bits).exponent (ofMagnitude t bits').exponent = low
  have hm := aligned_eq (ofMagnitude s bits) (hlow ▸ min_le_left _ _)
  have hn := aligned_eq (ofMagnitude t bits') (hlow ▸ min_le_right _ _)
  rw [hx] at hm
  rw [hy] at hn
  generalize (ofMagnitude s bits).significand * _ = m at *
  generalize (ofMagnitude t bits').significand * _ = n at *
  have hmul : m = n * q := by
    rw [← @Nat.cast_inj ℚ, Nat.cast_mul n, hm, hn]
    push_cast
    ring
  rw [hmul, Nat.mul_mod_right, negative_ofMagnitude]
  split
  · rw [Nat.zero_mul, ofRatio, if_pos rfl]
  · rw [ofRatio, if_pos rfl]

end Zeros

end Number

namespace Action

open Number Value

/-! ### Quotient and remainder -/

lemma add_int (x y : Int) : add (.int x) (.int y) = .ok (.int (x + y)) := rfl

lemma sub_int (x y : Int) : sub (.int x) (.int y) = .ok (.int (x - y)) := rfl

lemma mul_int (x y : Int) : mul (.int x) (.int y) = .ok (.int (x * y)) := rfl

lemma mod_int (x : Int) {y : Int} (hy : y ≠ 0) :
    mod (.int x) (.int y) = .ok (.int (x.tmod y)) := by
  simp [mod, Value.int, Num.mod?, hy, ofNum, inRange, Except.map]

lemma div_int {x y : Int} (hy : y ≠ 0) (h : y ∣ x) : div (.int x) (.int y) = .ok (.int (x / y)) := by
  have hzero : (Num.int y).isZero = false := by simpa [Num.isZero] using hy
  simp [div, Value.int, Num.div?, hzero, emod_eq_zero_of_dvd h, ofNum, inRange, Except.map]

/-- The remainder is smaller than the divisor and zero or of the sign of the dividend. Without it the
dividend has an exact quotient, and both give the dividend back. -/
theorem integer_division_fits (x : Int) {y : Int} (hy : y ≠ 0) : ∃ r q : Int,
    mod (.int x) (.int y) = .ok (.int r) ∧ r.natAbs < y.natAbs ∧ (r = 0 ∨ r.sign = x.sign) ∧
    (sub (.int x) (.int r) >>= fun d => div d (.int y)) = .ok (.int q) ∧
    (mul (.int q) (.int y) >>= fun p => add p (.int r)) = .ok (.int x) := by
  have hsplit := mul_tdiv_add_tmod x y
  have hexact : x - x.tmod y = y * x.tdiv y := by omega
  refine ⟨x.tmod y, x.tdiv y, mod_int x hy, ?_, ?_, ?_, ?_⟩
  · rw [natAbs_tmod]
    exact Nat.mod_lt _ (natAbs_pos.2 hy)
  · rw [← sign_eq_zero_iff_zero, sign_tmod]
    split <;> simp
  · rw [sub_int, hexact, ok_bind, div_int hy (Int.dvd_mul_right ..), mul_ediv_cancel_left _ hy]
  · rw [mul_int, ok_bind, add_int, Int.mul_comm, hsplit]

theorem integer_division_fits_large : (-7 : Int) ≠ 0 ∧
    ∃ r : Int, mod (.int (-100000000000000000001)) (.int (-7)) = .ok (.int r) ∧ r.natAbs < 7 := by
  obtain ⟨r, -, hmod, hlt, -⟩ :=
    integer_division_fits (-100000000000000000001) (y := -7) (by decide)
  exact ⟨by decide, r, hmod, hlt⟩

/-! ### Zero results -/

def double (n : Int) : Value := .num (.float (ofRatio (n < 0) n.natAbs 1))

def signedZero (negative : Bool) : Value := .num (.float (signed negative 0))

section Doubles

variable {x y : Int} (hx : x.natAbs < 2 ^ 53) (hy : y.natAbs < 2 ^ 53)
include hx hy

lemma mul_double (h : x * y = 0) :
    mul (double x) (double y) = .ok (signedZero ((x < 0 : Bool) != (y < 0 : Bool))) := by
  obtain ⟨bits, hbits, heq, -, hzero⟩ := exists_bits (decide (x < 0)) hx
  obtain ⟨bits', hbits', heq', -, hzero'⟩ := exists_bits (decide (y < 0)) hy
  have hzero : bits = 0 ∨ bits' = 0 :=
    (Int.mul_eq_zero.1 h).imp (fun h => hzero (natAbs_eq_zero.2 h))
      fun h => hzero' (natAbs_eq_zero.2 h)
  rw [double, double, heq, heq', mul, signedZero, ← signed_mul_signed _ _ hbits hbits' hzero]
  rfl

lemma mod_double (hne : y ≠ 0) (h : y ∣ x) :
    mod (double x) (double y) = .ok (signedZero (x < 0)) := by
  obtain ⟨bits, hbits, heq, hsize, -⟩ := exists_bits (decide (x < 0)) hx
  obtain ⟨bits', hbits', heq', hsize', -⟩ := exists_bits (decide (y < 0)) hy
  obtain ⟨-, hzero⟩ := beq_zero_signed _ hbits' hsize' (natAbs_ne_zero.2 hne)
  have hinf {negative : Bool} {bits : Nat} (h : bits < infinityBits) :
      (signed negative bits).isInf = false :=
    Bool.eq_false_iff.2 fun hinf => h.ne ((isInf_signed negative h.le).1 hinf)
  rw [double, double, heq, heq', mod, arithmetic_num, signedZero,
    ← remainder_signed _ _ hbits hbits' hsize hsize' (natAbs_dvd_natAbs.2 h)]
  simp [-Float.isNaN_eq_decide_eq_nan, Num.mod?, Num.isNaN?, Num.isInfinite?, Num.isZero,
    Num.toFloat?, hzero, hinf hbits, hinf hbits', isNaN_signed _ hbits.le, isNaN_signed _ hbits'.le,
    ofNum, inRange, Except.map]

omit hx

lemma div_double (hne : y ≠ 0) : div (double 0) (double y) = .ok (signedZero (y < 0)) := by
  obtain ⟨bits, hbits, heq, hsize, -⟩ := exists_bits (decide (y < 0)) hy
  obtain ⟨hne', hzero⟩ := beq_zero_signed _ hbits hsize (natAbs_ne_zero.2 hne)
  have hdiv := zero_div_signed false (decide (y < 0)) hbits hne'
  rw [Bool.false_bne] at hdiv
  rw [double, double, heq, div, arithmetic_num, signedZero, ← hdiv]
  simp [Num.div?, Num.isZero, hzero, Num.toFloat?, ofRatio, ofNum, inRange, Except.map]

end Doubles

lemma div_by_zero {z : Int} (hz : z ≠ 0) (hrange : z.natAbs < rangeLimit) {y : Num}
    (hy : y.isZero = true) :
    div (.int z) (.num y) = .ok (.num (.infinity ((z < 0 : Bool) != y.sign))) := by
  obtain ⟨r, hr⟩ := Option.ne_none_iff_exists'.1 (mt (ofInt?_eq_none_iff z).1 (not_le.2 hrange))
  rw [div, Value.int, arithmetic_num, Num.div?.eq_def, if_pos hy, Num.divideByZero?]
  simp [Num.isZero, hz, Num.isNaN?, hr, Num.sign, ofNum, inRange, Except.map]

/-- On integers of every size a product that is zero, a quotient of zero and a remainder of an exact
division are the integer zero, though negation gives `-0.0`. The doubles of the operands give a
zero with a sign. A division by that zero tells them apart. -/
theorem integer_zeros_lack_sign (x y : Int) :
    (x * y = 0 → mul (.int x) (.int y) = .ok (.int 0)) ∧
    (y ≠ 0 → div (.int 0) (.int y) = .ok (.int 0)) ∧
    (y ≠ 0 → y ∣ x → mod (.int x) (.int y) = .ok (.int 0)) ∧
    neg (.int 0) = signedZero true ∧
    (x.natAbs < 2 ^ 53 → y.natAbs < 2 ^ 53 →
      (x * y = 0 →
        mul (double x) (double y) = .ok (signedZero ((x < 0 : Bool) != (y < 0 : Bool)))) ∧
      (y ≠ 0 → div (double 0) (double y) = .ok (signedZero (y < 0))) ∧
      (y ≠ 0 → y ∣ x → mod (double x) (double y) = .ok (signedZero (x < 0)))) ∧
    ∀ z : Int, z ≠ 0 → z.natAbs < rangeLimit →
      div (.int z) (.int 0) = .ok (.num (.infinity (z < 0))) ∧
      ∀ s, div (.int z) (signedZero s) = .ok (.num (.infinity ((z < 0 : Bool) != s))) := by
  refine ⟨?_, ?_, ?_, rfl, fun hx hy => ⟨mul_double hx hy, div_double hy, mod_double hx hy⟩, ?_⟩
  · intro h
    rw [mul_int, h]
  · intro hy
    rw [div_int hy (Int.dvd_zero y), zero_ediv]
  · intro hy h
    rw [mod_int x hy, tmod_eq_zero_of_dvd h]
  · intro z hz hrange
    constructor
    · simpa [Value.int, Num.sign] using div_by_zero hz hrange (y := .int 0) rfl
    · intro s
      have hsign : signBit (signed s 0) = s := signBit_signed s (Nat.zero_le _)
      have hzero : (Num.float (signed s 0)).isZero = true := by cases s <;> rfl
      simpa [signedZero, Num.sign, hsign] using div_by_zero hz hrange hzero

theorem integer_zeros_lack_sign_product :
    mul (.int 0) (.int (-5)) = .ok (.int 0) ∧ mul (double 0) (double (-5)) = .ok (signedZero true) ∧
    div (.int 1) (.int 0) = .ok (.num (.infinity false)) ∧
    div (.int 1) (signedZero true) = .ok (.num (.infinity true)) := by
  obtain ⟨hmul, -, -, -, hdouble, hdiv⟩ := integer_zeros_lack_sign 0 (-5)
  have hone := hdiv 1 (by decide) one_lt_rangeLimit
  exact ⟨hmul (by decide), (hdouble (by decide) (by decide)).1 (by decide), hone.1, hone.2 true⟩

theorem negative_zeros_are_missed :
    mul (.int 0) (.int (-5)) ≠ .ok (signedZero true) ∧
    div (.int 0) (.int (-5)) ≠ .ok (signedZero true) ∧
    mod (.int (-4)) (.int 2) ≠ .ok (signedZero true) := by
  refine ⟨?_, ?_, ?_⟩ <;> exact nofun

end Action

end Overload
