import Overload.Action
import Overload.Proofs.Number.NumericText
import Overload.Proofs.Number.Rounding

/-! Integers below `2 ^ 53`, which are doubles themselves. -/

namespace Overload

open Nat List Value

/-! ### Doubles of integers -/

namespace Number

lemma isFinite_iff (x : Float) : x.isFinite = true ↔ magnitudeBits x < infinityBits := by
  have hnot : x.isFinite = !(x.isInf || x.isNaN) := by
    change x.toModel.unpack.isFinite = !(x.toModel.unpack.isInf || x.toModel.unpack.isNaN)
    cases x.toModel.unpack <;> rfl
  rw [hnot, Bool.not_eq_true', Bool.or_eq_false_iff, Bool.eq_false_iff, Bool.eq_false_iff, Ne, Ne,
    isInf_iff, isNaN_iff]
  omega

lemma magnitudeBits_of_beq_zero {x : Float} (h : (x == 0.0) = true) : magnitudeBits x = 0 := by
  obtain ⟨-, -, rfl | ⟨rfl, -⟩ | ⟨rfl, -⟩⟩ := Float.beq_iff_ne_nan_and_eq.1 h <;> rfl

lemma RoundsTo.eq {k m : Nat} (h : RoundsTo k m) : m = k := by
  obtain ⟨hlow, hhigh⟩ := h
  have hlow' : (m : ℚ) < k + 1 := by rcases hlow with h | h <;> linarith
  have hhigh' : (k : ℚ) < m + 1 := by rcases hhigh with h | h <;> linarith
  norm_cast at hlow' hhigh'
  omega

lemma negative_ofMagnitude (negative : Bool) (bits : Nat) :
    (ofMagnitude negative bits).negative = negative := by
  rw [ofMagnitude]
  split <;> rfl

variable {n : Nat}

lemma size_of_lt (negative : Bool) (hpos : 0 < n) (h : n < 2 ^ 53) :
    (ofMagnitude negative (nearestBits n 1)).size = n := by
  have hunit : unitExponent n 1 ≤ 0 := by
    by_contra hgt
    have hle := zpow_unitExponent_le hpos Nat.one_pos (by omega)
    have hpow : (2 : ℚ) ^ (53 : ℤ) ≤ 2 ^ (unitExponent n 1 + 52) :=
      zpow_le_zpow_right₀ one_le_two (by omega)
    have hcast : (n : ℚ) < 2 ^ (53 : ℤ) := by exact_mod_cast h
    rw [cast_one, div_one] at hle
    linarith
  have ht : (2 : ℚ) ^ unitExponent n 1 ≠ 0 := by positivity
  have hunits : (n : ℚ) / (1 : ℕ) / 2 ^ unitExponent n 1 = (n * 2 ^ (-unitExponent n 1).toNat : ℕ) := by
    rw [div_eq_iff ht]
    push_cast
    rw [div_one, mul_assoc, mul_comm (_ ^ _), ← pow_toNat two_ne_zero, Int.toNat_of_nonpos hunit]
    simp
  have hround := roundsTo_roundedUnits n Nat.one_pos
  rw [hunits] at hround
  rw [size_nearestBits hpos Nat.one_pos, hround.eq, ← hunits, div_mul_cancel₀ _ ht]
  simp

lemma exists_bits (negative : Bool) (h : n < 2 ^ 53) : ∃ bits < infinityBits,
    ofRatio negative n 1 = signed negative bits ∧ (ofMagnitude negative bits).size = n ∧
      (n = 0 → bits = 0) := by
  rcases Nat.eq_zero_or_pos n with rfl | hpos
  · exact ⟨0, by decide, rfl, by simp [ofMagnitude, Dyadic.size], fun _ => rfl⟩
  · have hlimit := two_pow_le_rangeLimit
    have hbits : nearestBits n 1 < infinityBits := by
      refine not_le.1 (mt (infinityBits_le_nearestBits_iff hpos Nat.one_pos).1 ?_)
      rw [cast_one, div_one, cast_le]
      omega
    refine ⟨_, hbits, ?_, size_of_lt negative hpos h, fun hzero => absurd hzero hpos.ne'⟩
    rw [ofRatio_eq_signed _ hpos, min_eq_left hbits.le]

end Number

namespace Num

open Number Text NumericText

lemma ofFloat_signed {negative : Bool} {bits k : Nat} (hbits : bits < infinityBits)
    (hsize : (ofMagnitude negative bits).size = k) (hpos : negative = true → 0 < k)
    (h : k < 2 ^ 53) : ofFloat (signed negative bits) = .int (if negative then -(k : Int) else k) := by
  obtain ⟨hint, htrunc⟩ := Dyadic.integral_of_size hsize
  rw [negative_ofMagnitude] at htrunc
  have hfinite : isFiniteInteger (signed negative bits) = true := by
    rw [isFiniteInteger, decode_signed _ hbits.le, hint, Bool.and_true, isFinite_iff,
      magnitudeBits_signed _ hbits.le]
    exact hbits
  have hzero : (signed negative bits == 0.0 && signBit (signed negative bits)) = false := by
    rw [signBit_signed _ hbits.le, Bool.and_eq_false_imp]
    intro hbeq
    have hbits' := magnitudeBits_of_beq_zero hbeq
    rw [magnitudeBits_signed _ hbits.le] at hbits'
    rw [hbits', ofMagnitude, if_pos (by decide), Dyadic.size, cast_zero, zero_mul] at hsize
    exact Bool.eq_false_iff.2 fun hneg => (hpos hneg).ne (cast_injective hsize)
  rw [ofFloat, hfinite, hzero, decode_signed _ hbits.le, htrunc, if_pos]
  split <;> simpa using h

lemma ofFloat_ofRatio {n : Int} (h : n.natAbs < 2 ^ 53) :
    ofFloat (ofRatio (n < 0) n.natAbs 1) = .int n := by
  obtain ⟨bits, hbits, heq, hsize, -⟩ := exists_bits (decide (n < 0)) h
  rw [heq, ofFloat_signed hbits hsize (by simp; omega) h]
  congr 1
  simp only [decide_eq_true_eq]
  split <;> omega

/-! ### Texts of integers -/

lemma toList_toString (n : Int) :
    (toString n).toList = (if n < 0 then ['-'] else []) ++ toDigits 10 n.natAbs := by
  rw [Int.toString_eq_repr, Int.repr_eq_if]
  split
  · rw [if_neg (by omega), nil_append, toList_repr, show n.toNat = n.natAbs by omega]
  · rw [if_pos (by omega), String.toList_append, toList_repr,
      show (-n).toNat = n.natAbs by omega]
    rfl

lemma scan?_toString (n : Int) :
    scan? (toString n).toList = some ⟨n < 0, toDigits 10 n.natAbs, [], 0⟩ := by
  have hnumeral := isNumeral_toDigits n.natAbs
  have hdigits : ∀ c ∈ toDigits 10 n.natAbs, isDecimal c = true :=
    fun c hc => isDecimal_of_isDigit (hnumeral.digits c hc)
  have htake : takeDigits (toDigits 10 n.natAbs) = (toDigits 10 n.natAbs, []) := by
    rw [← takeDigits_append hdigits (fun _ h => absurd h (by simp)), append_nil]
  have hsign : Sign (if n < 0 then ['-'] else []) := by
    split
    · exact .minus
    · exact .absent
  have hhead := takeSign_append hsign fun c hc =>
    ne_sign_of_isDecimal (hdigits c (mem_of_mem_head? hc))
  rw [scan?, toList_toString, hhead]
  by_cases hn : n < 0 <;> simp [htake, hnumeral.nonempty, scanExponent?, hn]

lemma ofChars_of_scan? {cs : List Char} {s : Scan} (h : scan? cs = some s) :
    ofChars cs = ofFloat s.value := by
  have hne {word : List Char} (hword : scan? word = none) : cs ≠ word := by
    rintro rfl
    exact absurd (h.symm.trans hword) (Option.some_ne_none s)
  have hradix : radixLiteral? cs = none := by
    rw [Option.eq_none_iff_forall_ne_some]
    rintro ⟨radix, ds⟩ hliteral
    exact absurd (h.symm.trans (scan?_of_radixLiteral? hliteral)) (Option.some_ne_none s)
  rw [ofChars, if_neg (hne rfl), if_neg (not_or.2 ⟨hne rfl, hne rfl⟩), if_neg (hne rfl), hradix, h]

lemma ofChars_toString {n : Int} (h : n.natAbs < 2 ^ 53) : ofChars (toString n).toList = .int n := by
  have hdigits := (isNumeral_toDigits n.natAbs).digits
  have hvalue : ((digitsValue? (toDigits 10 n.natAbs)).getD 0) = n.natAbs := by
    rw [digitsValue?_ascii hdigits, ofDigitChars_ten_toDigits]
    rfl
  have hlength : decimalLength n.natAbs ≤ 16 :=
    (length_toDigits_le_iff (by decide) (by decide)).2 (h.trans (by decide))
  rw [ofChars_of_scan? (scan?_toString n), Scan.value, append_nil, hvalue, ofDecimal]
  simp only [length_nil]
  split_ifs with hzero hlarge
  · have hn : n.natAbs = 0 := by omega
    rw [← ofFloat_ofRatio h, hn, ofRatio, if_pos rfl]
  · omega
  · simpa using ofFloat_ofRatio h

lemma isDigit_or_sign {n : Int} {c : Char} (hc : c ∈ (toString n).toList) :
    c = '-' ∨ c.isDigit = true := by
  rw [toList_toString, mem_append] at hc
  obtain hc | hc := hc
  · left
    split at hc <;> simp_all
  · exact .inr ((isNumeral_toDigits _).digits c hc)

lemma not_isSpace {n : Int} {c : Char} (hc : c ∈ (toString n).toList) : ¬ IsSpace c := by
  obtain rfl | hdigit := isDigit_or_sign hc
  · rw [← isBlank_iff]
    decide
  · rw [Text.isDigit_iff] at hdigit
    simp only [IsSpace, IsWhiteSpace, IsLineTerminator, IsSpaceSeparator, mem_cons,
      not_mem_nil, or_false]
    omega

lemma ofText_toString {n : Int} (h : n.natAbs < 2 ^ 53) (left right : String)
    (hleft : ∀ c ∈ left.toList, IsSpace c) (hright : ∀ c ∈ right.toList, IsSpace c) :
    ofText (left ++ toString n ++ right) = .int n := by
  have hstripped : Stripped (left ++ toString n ++ right).toList (toString n).toList :=
    ⟨_, _, by simp, hleft, hright, fun c hc => not_isSpace (mem_of_mem_head? hc),
      fun c hc => not_isSpace (mem_of_getLast? hc)⟩
  rw [ofText, ← hstripped.eq_trim, ofChars_toString h]

end Num

namespace Value

open NumericText

/-- A safe integer is read back from its text, whatever space stands around it. So it loosely equals
its text, and its text counts as the integer itself in a difference. -/
theorem safe_integer_survives_text {n : Int} (h : n.natAbs < 2 ^ 53) :
    (∀ left right : String, (∀ c ∈ left.toList, IsSpace c) → (∀ c ∈ right.toList, IsSpace c) →
      Num.ofText (left ++ (Num.int n).text ++ right) = .int n) ∧
    looseEquals (.int n) (.str (Value.int n).text) = true ∧
    Action.sub (.str (Value.int n).text) (.int 0) = .ok (.int n) := by
  have hread : (str (int n).text).number = .int n := by
    simpa [int, text, Num.text, number] using Num.ofText_toString h "" "" (by simp) (by simp)
  refine ⟨Num.ofText_toString h, ?_, ?_⟩
  · have hloose : looseEquals (.int n) (.str (int n).text) =
        (Num.int n).equal (str (int n).text).number := by
      rw [looseEquals]
      simp [int, domain, isNullish, number]
    rw [hloose, hread]
    simp [Num.equal, Num.compare?]
  · have hsub : Action.sub (.str (int n).text) (.int 0) =
        Action.ofNum ((str (int n).text).number.sub? (.int 0)) := rfl
    rw [hsub, hread]
    simp [int, Num.sub?, Action.ofNum, inRange, Except.map]

theorem safe_integer_survives_text_least :
    Num.ofText ("\n" ++ (Num.int (-9007199254740991)).text ++ "\ufeff") = .int (-9007199254740991) :=
  (safe_integer_survives_text (n := -9007199254740991) (by decide)).1 "\n" "\ufeff"
    (by simp [← isBlank_iff, Text.isBlank, Text.blanks])
    (by simp [← isBlank_iff, Text.isBlank, Text.blanks])

end Value

end Overload
