import Overload.Number.Layout
import Overload.Proofs.Number.SafeInteger

/-!
Digits of integers that are doubles. Main statement: the shortest decimal of such a double is the
integer itself just if no integer that is the same double ends in more zeros.
-/

namespace Overload.Number

open Nat

variable {n j : Nat} {i : Interval}

/-! ### Decimals in an interval -/

lemma compare_scaled {a b : Nat} {x y t : ℚ} (ht : 0 < t) (ha : (a : ℚ) = x * t)
    (hb : (b : ℚ) = y * t) : compare a b = compare x y := by
  rcases lt_trichotomy x y with hlt | rfl | hgt
  · rw [compare_lt_iff_lt.2 hlt, compare_lt_iff_lt, ← @cast_lt ℚ, ha, hb]
    exact mul_lt_mul_of_pos_right hlt ht
  · rw [compare_eq_iff_eq.2 rfl, compare_eq_iff_eq, ← @Nat.cast_inj ℚ, ha, hb]
  · rw [compare_gt_iff_gt.2 hgt, compare_gt_iff_gt, ← @cast_lt ℚ, ha, hb]
    exact mul_lt_mul_of_pos_right hgt ht

lemma comparePowers_eq (n : Nat) (e : ℤ) (m : Nat) (u : ℤ) :
    comparePowers n e m u = compare (n * 10 ^ e : ℚ) (m * 2 ^ u) := by
  have ht : (0 : ℚ) < 10 ^ (-e).toNat * 2 ^ (-u).toNat := by positivity
  refine compare_scaled ht ?_ ?_
  · rw [pow_eq, pow_eq]
    push_cast
    rw [pow_toNat (by norm_num)]
    ring
  · rw [pow_eq, pow_eq]
    push_cast
    rw [pow_toNat two_ne_zero]
    ring

namespace Interval

lemma holds_iff (i : Interval) (d : Decimal) :
    i.holds d = true ↔ i.Has (d.coefficient * 10 ^ d.exponent) := by
  simp only [holds, comparePowers_eq, Has, lower, upper, Bool.and_eq_true, Bool.or_eq_true,
    beq_iff_eq, compare_lt_iff_lt, compare_eq_iff_eq, compare_gt_iff_gt]

lemma holds_natCast (i : Interval) (c j : Nat) :
    i.holds ⟨c, j⟩ = true ↔ i.Has (c * 10 ^ j : ℕ) := by
  rw [holds_iff, zpow_natCast]
  push_cast
  rfl

lemma Has.convex {p q r : ℚ} (hp : i.Has p) (hr : i.Has r) (hpq : p ≤ q) (hqr : q ≤ r) :
    i.Has q := by
  refine ⟨?_, ?_⟩
  · rcases hp.1 with h | ⟨hc, rfl⟩
    · exact .inl (h.trans_le hpq)
    · exact hpq.lt_or_eq.imp id fun h => ⟨hc, h.symm⟩
  · rcases hr.2 with h | ⟨hc, rfl⟩
    · exact .inl (hqr.trans_lt h)
    · exact hqr.lt_or_eq.imp id fun h => ⟨hc, h⟩

lemma candidate?_eq_none_iff {e : ℤ} : i.candidate? e = none ↔
    i.holds ⟨i.floorAt e, e⟩ = false ∧ i.holds ⟨i.floorAt e + 1, e⟩ = false := by
  rw [candidate?]
  cases i.holds ⟨i.floorAt e, e⟩ <;> cases i.holds ⟨i.floorAt e + 1, e⟩ <;> simp

lemma nearer_cases (i : Interval) (s : Nat) (e : ℤ) : i.nearer s e = s ∨ i.nearer s e = s + 1 := by
  unfold nearer
  split
  · exact .inr rfl
  · exact .inl rfl
  · split
    · exact .inl rfl
    · exact .inr rfl

lemma holds_candidate? {e : ℤ} {d : Decimal} (h : i.candidate? e = some d) :
    i.holds d = true ∧ d.exponent = e ∧
      (d.coefficient = i.floorAt e ∨ d.coefficient = i.floorAt e + 1) := by
  rw [candidate?] at h
  split at h
  · rename_i hs hs'
    obtain rfl := Option.some.inj h
    rcases i.nearer_cases (i.floorAt e) e with hn | hn <;> rw [hn]
    · exact ⟨hs, rfl, .inl rfl⟩
    · exact ⟨hs', rfl, .inr rfl⟩
  · rename_i hs hs'
    obtain rfl := Option.some.inj h
    exact ⟨hs, rfl, .inl rfl⟩
  · rename_i hs hs'
    obtain rfl := Option.some.inj h
    exact ⟨hs', rfl, .inr rfl⟩
  · cases h

lemma search_cases (i : Interval) (point : ℤ) (digits fuel : Nat) : ∃ k, digits ≤ k ∧
    (∀ k', digits ≤ k' → k' < k → i.candidate? (point - k') = none) ∧
    (i.candidate? (point - k) = some (i.search point digits fuel) ∨
      k = digits + fuel ∧ i.search point digits fuel = ⟨i.floorAt (point - k), point - k⟩) := by
  induction fuel generalizing digits with
  | zero => exact ⟨digits, le_rfl, fun k' h h' => by omega, .inr ⟨rfl, rfl⟩⟩
  | succ fuel ih =>
    rw [search]
    cases hc : i.candidate? (point - digits) with
    | some d => exact ⟨digits, le_rfl, fun k' h h' => by omega, .inl hc⟩
    | none =>
      obtain ⟨k, hk, hnone, hend⟩ := ih (digits + 1)
      refine ⟨k, by omega, fun k' h h' => ?_, hend.imp_right (And.imp_left (by omega))⟩
      rcases Nat.eq_or_lt_of_le h with rfl | hlt
      · exact hc
      · exact hnone k' hlt h'

end Interval

/-! ### Digits of integers -/

lemma toDigits_mul_pow (hn : 0 < n) (k : Nat) :
    toDigits 10 (n * 10 ^ k) = toDigits 10 n ++ zeros k := by
  have hdigits : ∀ c ∈ zeros k, c.isDigit = true := fun c hc => (List.eq_of_mem_replicate hc) ▸ rfl
  rw [Text.toDigits_append hdigits hn, zeros, ofDigitChars_replicate_zero, Nat.mul_comm]

lemma decimalLength_mul_pow (hn : 0 < n) (k : Nat) :
    decimalLength (n * 10 ^ k) = decimalLength n + k := by
  rw [decimalLength, toDigits_mul_pow hn, List.length_append, zeros, List.length_replicate,
    decimalLength]

lemma decimalLength_pos (n : Nat) : 0 < decimalLength n := length_toDigits_pos

lemma lt_pow_decimalLength (n : Nat) : n < 10 ^ decimalLength n :=
  (length_toDigits_le_iff (by decide) (decimalLength_pos n)).1 le_rfl

lemma pow_le_of_lt_decimalLength {k : Nat} (hn : 0 < n) (hk : k < decimalLength n) :
    10 ^ k ≤ n := by
  rcases Nat.eq_zero_or_pos k with rfl | hpos
  · exact hn
  · by_contra hlt
    have := (length_toDigits_le_iff (b := 10) (by decide) hpos).2 (not_le.1 hlt)
    exact absurd this (not_le.2 hk)

section Integral

variable {d : Dyadic} (hsize : d.size = n)
include hsize

lemma value_interval : (d.interval.value : ℚ) * 2 ^ d.interval.unit = n := by
  rw [Dyadic.zpow_interval, ← hsize, Dyadic.size, Dyadic.interval]
  push_cast
  ring

lemma value_mul_pow : d.interval.value * Nat.pow 2 d.interval.unit.toNat =
    n * Nat.pow 2 (-d.interval.unit).toNat := by
  rw [← @Nat.cast_inj ℚ, pow_eq, pow_eq]
  push_cast
  rw [pow_toNat two_ne_zero, ← mul_assoc, value_interval hsize]

lemma floorAt_natCast (j : Nat) : d.interval.floorAt j = n / 10 ^ j := by
  have hpos : 0 < Nat.pow 2 (-d.interval.unit).toNat := Nat.pow_pos Nat.two_pos
  rw [Interval.floorAt, value_mul_pow hsize, Int.toNat_natCast,
    Int.toNat_of_nonpos (Int.neg_nonpos_of_nonneg (Int.natCast_nonneg j))]
  simpa using Nat.mul_div_mul_right n (10 ^ j) hpos

lemma floorAt_neg (k : Nat) : d.interval.floorAt (-k) = n * 10 ^ k := by
  rw [Interval.floorAt, value_mul_pow hsize, neg_neg, Int.toNat_natCast,
    Int.toNat_of_nonpos (Int.neg_nonpos_of_nonneg (Int.natCast_nonneg k)), Nat.mul_right_comm]
  simp

lemma point_interval (hn : 0 < n) : d.interval.point = decimalLength n := by
  have hfloor := floorAt_neg hsize 400
  rw [Interval.point]
  change ((decimalLength (d.interval.floorAt (-(400 : ℕ))) : ℕ) : ℤ) - (400 : ℕ) = _
  rw [hfloor, decimalLength_mul_pow hn]
  omega

variable (hs : 2 ^ 52 ≤ d.significand)
include hs

lemma lower_lt_self_lt_upper : d.interval.lower < n ∧ n < d.interval.upper := by
  have ht : (0 : ℚ) < 2 ^ d.exponent := by positivity
  have hbelow := d.below_bounds
  rw [Dyadic.lower_interval (by omega), Dyadic.upper_interval, ← hsize, Dyadic.size]
  exact ⟨mul_lt_mul_of_pos_right (by linarith) ht, mul_lt_mul_of_pos_right (by linarith) ht⟩

lemma has_self : d.interval.Has n :=
  (lower_lt_self_lt_upper hsize hs).imp .inl .inl

lemma candidate?_ne_none {m : Nat} (hm : d.interval.Has m) (hdvd : 10 ^ j ∣ m) :
    d.interval.candidate? j ≠ none := by
  rw [Ne, Interval.candidate?_eq_none_iff, floorAt_natCast hsize, ← Bool.not_eq_true,
    ← Bool.not_eq_true, Interval.holds_natCast, Interval.holds_natCast]
  rintro ⟨hfloor, hceil⟩
  have hself := has_self hsize hs
  have hpos : 0 < 10 ^ j := by positivity
  obtain ⟨c, rfl⟩ := hdvd
  rcases le_or_gt (10 ^ j * c) n with hle | hlt
  · have hc : c ≤ n / 10 ^ j := (Nat.le_div_iff_mul_le hpos).2 (by linarith)
    refine hfloor (hm.convex hself (cast_le.2 ?_) (cast_le.2 (div_mul_le_self n _)))
    rw [Nat.mul_comm]
    exact Nat.mul_le_mul_right _ hc
  · have hc : n / 10 ^ j + 1 ≤ c := (Nat.div_lt_iff_lt_mul hpos).2 (by linarith)
    refine hceil (hself.convex hm (cast_le.2 ?_) (cast_le.2 ?_))
    · exact (lt_mul_of_div_lt (lt_succ_self _) hpos).le
    · rw [Nat.mul_comm]
      exact Nat.mul_le_mul_left _ hc

lemma candidate?_of_dvd (hdvd : 10 ^ j ∣ n) : d.interval.candidate? j = some ⟨n / 10 ^ j, j⟩ := by
  have hpos : (0 : ℚ) < 10 ^ (j : ℤ) := by positivity
  have hmul : n / 10 ^ j * 10 ^ j = n := Nat.div_mul_cancel hdvd
  have hholds : d.interval.holds ⟨n / 10 ^ j, j⟩ = true := by
    rw [Interval.holds_natCast, hmul]
    exact has_self hsize hs
  have hnearer : d.interval.nearer (n / 10 ^ j) j = n / 10 ^ j := by
    have hgt : comparePowers (2 * (n / 10 ^ j) + 1) j (2 * d.interval.value) d.interval.unit =
        .gt := by
      have hcast : ((n / 10 ^ j : ℕ) : ℚ) * 10 ^ (j : ℤ) = n := by exact_mod_cast hmul
      rw [comparePowers_eq, compare_gt_iff_gt, cast_mul, mul_assoc, value_interval hsize]
      push_cast [← hcast]
      linarith
    rw [Interval.nearer, hgt]
  rw [Interval.candidate?, floorAt_natCast hsize, hholds, hnearer]
  cases d.interval.holds ⟨n / 10 ^ j + 1, j⟩ <;> rfl

lemma candidate?_seventeen (h : 10 ^ 16 * 10 ^ j ≤ n) (hs' : d.significand < 2 ^ 53) :
    d.interval.candidate? j ≠ none := by
  rw [Ne, Interval.candidate?_eq_none_iff, floorAt_natCast hsize, ← Bool.not_eq_true,
    ← Bool.not_eq_true, Interval.holds_natCast, Interval.holds_natCast]
  rintro ⟨hfloor, hceil⟩
  obtain ⟨hlt, hgt⟩ := lower_lt_self_lt_upper hsize hs
  have hle : ((n / 10 ^ j * 10 ^ j : ℕ) : ℚ) ≤ n := cast_le.2 (div_mul_le_self n _)
  have hge : (n : ℚ) ≤ ((n / 10 ^ j + 1) * 10 ^ j : ℕ) :=
    cast_le.2 (lt_mul_of_div_lt (lt_succ_self _) (by positivity)).le
  -- Both neighbours are out of the interval, so the step between them is as wide as it.
  have hlower : ((n / 10 ^ j * 10 ^ j : ℕ) : ℚ) ≤ d.interval.lower :=
    not_lt.1 fun h => hfloor ⟨.inl h, .inl (hle.trans_lt hgt)⟩
  have hupper : d.interval.upper ≤ ((n / 10 ^ j + 1) * 10 ^ j : ℕ) :=
    not_lt.1 fun h => hceil ⟨.inl (hlt.trans_le hge), .inl h⟩
  have hcast : (10 ^ 16 * 10 ^ j : ℚ) ≤ n := by exact_mod_cast h
  have hwide : d.interval.upper - d.interval.lower ≤ 10 ^ j := by
    push_cast at hlower hupper
    linarith
  rw [Dyadic.lower_interval (by omega), Dyadic.upper_interval] at hwide
  rw [← hsize, Dyadic.size] at hcast
  have ht : (0 : ℚ) < 2 ^ d.exponent := by positivity
  have hmul : (10 ^ 16 * (d.below + 1 / 2)) * 2 ^ d.exponent ≤ d.significand * 2 ^ d.exponent := by
    linarith
  have hsig := le_of_mul_le_mul_right hmul ht
  rw [Dyadic.below] at hsig
  split at hsig
  · rename_i hedge
    rw [hedge.1] at hsig
    norm_num at hsig
  · have hs'' : (d.significand : ℚ) < 2 ^ 53 := by exact_mod_cast hs'
    norm_num at hsig hs''
    linarith

lemma has_near {q : ℚ} (h : d.interval.Has q) :
    n - 2 ^ d.exponent / 2 ≤ q ∧ q ≤ n + 2 ^ d.exponent / 2 := by
  have ht : (0 : ℚ) < 2 ^ d.exponent := by positivity
  have hbelow := mul_le_mul_of_nonneg_right d.below_bounds.2 ht.le
  have hlower : d.interval.lower ≤ q := h.1.elim le_of_lt fun h => h.2.ge
  have hupper : q ≤ d.interval.upper := h.2.elim le_of_lt fun h => h.2.le
  rw [Dyadic.lower_interval (by omega)] at hlower
  rw [Dyadic.upper_interval] at hupper
  rw [← hsize, Dyadic.size]
  constructor <;> linarith

lemma has_bounds {m : Nat} (h : d.interval.Has m) : 0 < m ∧ 9 * m < 10 * n := by
  have ht : (0 : ℚ) < 2 ^ d.exponent := by positivity
  have hs' : (2 ^ 52 : ℚ) ≤ d.significand := by exact_mod_cast hs
  have hwide := mul_le_mul_of_nonneg_right hs' ht.le
  obtain ⟨hlow, hhigh⟩ := has_near hsize hs h
  rw [← Dyadic.size, hsize] at hwide
  have hpos : (0 : ℚ) < m := by linarith
  have hlt : (9 * m : ℚ) < 10 * n := by linarith
  exact ⟨by exact_mod_cast hpos, by exact_mod_cast hlt⟩

lemma search_integral (hn : 0 < n) (hs' : d.significand < 2 ^ 53) : ∃ c j : Nat,
    d.interval.search d.interval.point 1 17 = ⟨c, j⟩ ∧ 0 < c ∧
      (c * 10 ^ j = n ↔ ∀ m k : Nat, d.interval.Has m → 10 ^ k ∣ m → 10 ^ k ∣ n) := by
  rw [point_interval hsize hn]
  obtain ⟨k, hk, hnone, hend⟩ := d.interval.search_cases (decimalLength n) 1 17
  have hself := has_self hsize hs
  have hkL : k ≤ decimalLength n := by
    by_contra hgt
    have hzero := hnone (decimalLength n) (decimalLength_pos n) (by omega)
    rw [sub_self] at hzero
    exact candidate?_ne_none hsize hs (j := 0) hself (by simp) hzero
  obtain ⟨j, hj⟩ := Nat.exists_eq_add_of_le hkL
  have hgrid : (decimalLength n : ℤ) - k = j := by omega
  rw [hgrid] at hend
  generalize d.interval.search (decimalLength n) 1 17 = r at hend ⊢
  obtain ⟨c, rfl, hc⟩ : ∃ c, r = ⟨c, j⟩ ∧ n / 10 ^ j ≤ c := by
    rw [← floorAt_natCast hsize]
    obtain hcand | ⟨-, rfl⟩ := hend
    · obtain ⟨c, e⟩ := r
      obtain ⟨-, rfl, hc⟩ := Interval.holds_candidate? hcand
      exact ⟨c, rfl, by dsimp only at hc; omega⟩
    · exact ⟨_, rfl, le_rfl⟩
  have hpos : 0 < n / 10 ^ j :=
    Nat.div_pos (pow_le_of_lt_decimalLength hn (by omega)) (by positivity)
  refine ⟨c, j, rfl, hpos.trans_le hc, ?_, fun h => ?_⟩
  · intro hvalue m k' hm hdvd
    by_cases hle : k' ≤ j
    · exact (pow_dvd_pow 10 hle).trans ⟨c, by rw [← hvalue, Nat.mul_comm]⟩
    · have hdvd' : 10 ^ (j + 1) ∣ m := (pow_dvd_pow 10 (by omega)).trans hdvd
      rcases Nat.eq_or_lt_of_le hk with rfl | hlt
      · -- A power of ten above the value is too far from it.
        obtain ⟨hm', hfar⟩ := has_bounds hsize hs hm
        have hle' := le_of_dvd hm' hdvd'
        have hlt := lt_pow_decimalLength n
        rw [hj, Nat.add_comm 1 j] at hlt
        rw [pow_succ] at hle' hlt
        have hdigit : c < 10 := Nat.lt_of_mul_lt_mul_right (a := 10 ^ j) (by linarith)
        have hnine := Nat.mul_le_mul_right (10 ^ j) (le_of_lt_succ hdigit)
        omega
      · have hprev := hnone (k - 1) (by omega) (by omega)
        have hgrid' : (decimalLength n : ℤ) - (k - 1 : ℕ) = (j + 1 : ℕ) := by omega
        rw [hgrid'] at hprev
        exact absurd hprev (candidate?_ne_none hsize hs hm hdvd')
  · obtain hcand | ⟨rfl, -⟩ := hend
    · have hhas := (d.interval.holds_natCast c j).1 (Interval.holds_candidate? hcand).1
      have hdvd := h _ j hhas (Nat.dvd_mul_left _ _)
      rw [candidate?_of_dvd hsize hs hdvd] at hcand
      obtain rfl : n / 10 ^ j = c := congrArg Decimal.coefficient (Option.some.inj hcand)
      exact Nat.div_mul_cancel hdvd
    · have hprev := hnone 17 (by decide) (by decide)
      have hgrid' : (decimalLength n : ℤ) - (17 : ℕ) = (j + 1 : ℕ) := by omega
      rw [hgrid'] at hprev
      refine absurd hprev (candidate?_seventeen hsize hs ?_ hs')
      rw [← pow_add]
      exact pow_le_of_lt_decimalLength hn (by omega)

end Integral

/-! ### Layout -/

lemma strip_eq (fuel : Nat) (d : Decimal) : ∃ t : Nat,
    (d.strip fuel).exponent = d.exponent + t ∧ (d.strip fuel).coefficient * 10 ^ t = d.coefficient := by
  induction fuel generalizing d with
  | zero => exact ⟨0, by simp [Decimal.strip]⟩
  | succ fuel ih =>
    rw [Decimal.strip]
    split
    · rename_i hzero
      obtain ⟨t, hexp, hcoef⟩ := ih ⟨d.coefficient / 10, d.exponent + 1⟩
      refine ⟨t + 1, ?_, ?_⟩
      · rw [hexp]
        push_cast
        ring
      · rw [pow_succ, ← mul_assoc, hcoef]
        exact Nat.div_mul_cancel (dvd_of_mod_eq_zero hzero.2)
    · exact ⟨0, by simp⟩

lemma digitsText_integral {c : Nat} (hc : 0 < c) (j n : Nat) :
    plainLayout.digitsText ⟨c, j⟩ = toDigits 10 n ↔ c * 10 ^ j = n ∧ n < 10 ^ 21 := by
  have hpos : 0 < (toDigits 10 c).length := length_toDigits_pos
  have hlength : decimalLength (c * 10 ^ j) = (toDigits 10 c).length + j :=
    decimalLength_mul_pow hc j
  have hrange : c * 10 ^ j < 10 ^ 21 ↔ (toDigits 10 c).length + j ≤ 21 := by
    rw [← hlength, decimalLength, length_toDigits_le_iff (by decide) (by decide)]
  have hhigh : ((toDigits 10 c).length + j : ℤ) ≤ plainLayout.highest ↔
      (toDigits 10 c).length + j ≤ 21 := by
    change _ ≤ (21 : ℤ) ↔ _
    omega
  by_cases hplain : (toDigits 10 c).length + j ≤ 21
  · have hlow : plainLayout.lowest ≤ (toDigits 10 c).length + j := by
      change -5 ≤ _
      omega
    have hpoint : ((toDigits 10 c).length + j : ℤ).toNat - (toDigits 10 c).length = j := by
      omega
    have htext : plainLayout.digitsText ⟨c, j⟩ = toDigits 10 (c * 10 ^ j) := by
      rw [Layout.digitsText, if_pos ⟨hlow, hhigh.2 hplain⟩, Layout.positional, if_neg (by dsimp only; omega),
        if_pos (by dsimp only; omega), hpoint, toDigits_mul_pow hc]
      exact List.append_nil _
    rw [htext]
    constructor
    · intro htext
      have heq := congrArg (ofDigitChars 10 · 0) htext
      simp only [ofDigitChars_ten_toDigits] at heq
      exact ⟨heq, heq ▸ hrange.2 hplain⟩
    · rintro ⟨rfl, -⟩
      rfl
  · refine iff_of_false (fun htext => ?_) ?_
    · have hmem : 'e' ∈ toDigits 10 n := by
        rw [← htext, Layout.digitsText, if_neg fun h => hplain (hhigh.1 h.2)]
        simp [Layout.scientific]
      exact absurd ((Text.isNumeral_toDigits n).digits _ hmem) (by decide)
    · rintro ⟨rfl, hlt⟩
      exact hplain (hrange.1 hlt)

lemma digitsText_shortest {d : Dyadic} (hsize : d.size = n) (hn : 0 < n)
    (hs : 2 ^ 52 ≤ d.significand) (hs' : d.significand < 2 ^ 53) :
    plainLayout.digitsText d.shortest = toDigits 10 n ↔
      n < 10 ^ 21 ∧ ∀ m k : Nat, d.interval.Has m → 10 ^ k ∣ m → 10 ^ k ∣ n := by
  obtain ⟨c, j, hsearch, hc, hiff⟩ := search_integral hsize hs hn hs'
  rw [Dyadic.shortest, if_neg (by omega), hsearch]
  obtain ⟨t, hexp, hcoef⟩ := strip_eq 400 ⟨c, j⟩
  generalize Decimal.strip 400 ⟨c, j⟩ = r at *
  obtain ⟨c', e⟩ := r
  obtain rfl : e = (j + t : ℕ) := by simpa using hexp
  dsimp only at hcoef
  have hc' : 0 < c' := Nat.pos_of_mul_pos_right (hcoef ▸ hc)
  rw [digitsText_integral hc', ← hiff, and_comm, Nat.add_comm, pow_add, ← mul_assoc, hcoef]

end Overload.Number
