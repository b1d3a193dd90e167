import Mathlib.Tactic.Lemma
import Overload.Action

/-! Machine words. -/

namespace Overload

open Int

/-! ### Bits of integers -/

namespace Number

@[simp] lemma isNegative_natCast (n : Nat) : isNegative n = false := by
  simp [isNegative]

@[simp] lemma isNegative_negSucc (n : Nat) : isNegative (.negSucc n) = true := by
  simp [isNegative, negSucc_lt_zero]

lemma isNegative_joinBits (f : Bool → Bool → Bool) (a b : Int) :
    isNegative (joinBits f a b) = f (isNegative a) (isNegative b) := by
  rw [joinBits]
  split <;> simp_all

lemma magnitude_joinBits (f : Bool → Bool → Bool) (a b : Int) :
    magnitude (joinBits f a b) = Nat.bitwise (fun x y =>
      f (x != isNegative a) (y != isNegative b) != f (isNegative a) (isNegative b))
      (magnitude a) (magnitude b) := by
  rw [joinBits]
  split <;> rfl

lemma getElem_ofInt {w i : Nat} (hi : i < w) (n : Int) :
    (BitVec.ofInt w n)[i] = ((magnitude n).testBit i != isNegative n) := by
  cases n with
  | ofNat n | negSucc n => simp [← BitVec.getLsbD_eq_getElem, BitVec.getLsbD_ofNat, hi, magnitude]

lemma getElem_ofInt_joinBits {w i : Nat} (hi : i < w) (f : Bool → Bool → Bool) (a b : Int) :
    (BitVec.ofInt w (joinBits f a b))[i] = f (BitVec.ofInt w a)[i] (BitVec.ofInt w b)[i] := by
  rw [getElem_ofInt hi, getElem_ofInt hi, getElem_ofInt hi, isNegative_joinBits,
    magnitude_joinBits, Nat.testBit_bitwise (by simp)]
  simp

lemma joinBits_and_ones (n : Nat) : joinBits Bool.and n 31 = (n % 32 : Nat) := by
  have hdiffers : (fun x y => Bool.and (x != false) (y != false) != Bool.and false false) =
      Bool.and := by
    funext x y
    cases x <;> cases y <;> rfl
  have hones : isNegative 31 = false := rfl
  have hmod : Nat.bitwise Bool.and n 31 = n % 32 := Nat.and_two_pow_sub_one_eq_mod n 5
  simp only [joinBits, isNegative_natCast, hones, hdiffers]
  exact congrArg Nat.cast hmod

/-! ### Words of 32 bits -/

def word (n : Int) : BitVec 32 := BitVec.ofInt 32 n

def IsSigned (r : Int) : Prop := -0x80000000 ≤ r ∧ r < 0x80000000

def IsUnsigned (r : Int) : Prop := 0 ≤ r ∧ r < 0x100000000

lemma isSigned_iff {r : Int} : IsSigned r ↔ magnitude r < 0x80000000 := by
  cases r with
  | ofNat n => simp only [IsSigned, magnitude, ofNat_eq_natCast]; omega
  | negSucc n => simp only [IsSigned, magnitude]; omega

lemma isSigned_toInt (x : BitVec 32) : IsSigned x.toInt :=
  ⟨BitVec.le_toInt x, BitVec.toInt_lt⟩

lemma isUnsigned_toNat (x : BitVec 32) : IsUnsigned x.toNat :=
  ⟨natCast_nonneg _, Int.ofNat_lt.2 x.isLt⟩

lemma toInt_word {r : Int} (h : IsSigned r) : (word r).toInt = r :=
  BitVec.toInt_ofInt_eq_self (by decide) h.1 h.2

lemma toNat_word (n : Int) : ((word n).toNat : Int) = n % 0x100000000 := by
  rw [word, BitVec.toNat_ofInt]
  omega

lemma wrap32_eq_toInt (n : Int) : Num.wrap32 n = (word n).toInt := by
  rw [word, BitVec.toInt_ofInt, bmod_def, Num.wrap32]
  split <;> split <;> omega

lemma int32_eq_toInt (n : Int) : (Value.int n).int32 = (word n).toInt := wrap32_eq_toInt n

lemma uint32_eq_toNat (n : Int) : (Value.int n).uint32 = (word n).toNat := by
  rw [toNat_word]
  exact Num.wrap32_emod n

lemma isSigned_joinBits (f : Bool → Bool → Bool) {a b : Int} (ha : IsSigned a) (hb : IsSigned b) :
    IsSigned (joinBits f a b) := by
  rw [isSigned_iff] at ha hb ⊢
  rw [magnitude_joinBits]
  exact Nat.bitwise_lt_two_pow (n := 31) ha hb

lemma joinBits_toInt {f : Bool → Bool → Bool} {g : BitVec 32 → BitVec 32 → BitVec 32}
    (hg : ∀ (x y : BitVec 32) i (hi : i < 32), (g x y)[i] = f x[i] y[i]) (x y : BitVec 32) :
    joinBits f x.toInt y.toInt = (g x y).toInt := by
  have hword : word (joinBits f x.toInt y.toInt) = g x y := by
    apply BitVec.eq_of_getElem_eq
    intro i hi
    simp only [word, getElem_ofInt_joinBits hi, hg, BitVec.ofInt_toInt]
  rw [← hword, toInt_word (isSigned_joinBits f (isSigned_toInt x) (isSigned_toInt y))]

lemma toInt_not (x : BitVec 32) : -1 - x.toInt = (~~~x).toInt := by
  rw [BitVec.toInt_not, BitVec.toInt_eq_toNat_bmod]
  have hlt := x.isLt
  rw [bmod_def, bmod_def]
  split <;> split <;> omega

lemma word_mul_pow (x : BitVec 32) (k : Nat) : word (x.toInt * Int.pow 2 k) = x <<< k := by
  have hcast : Int.pow 2 k = Nat.pow 2 k := (natCast_pow 2 k).symm
  have hpow : BitVec.ofInt 32 (Int.pow 2 k) = BitVec.twoPow 32 k := by
    apply BitVec.eq_of_toNat_eq
    rw [hcast, BitVec.ofInt_natCast, BitVec.toNat_ofNat, BitVec.toNat_twoPow]
    rfl
  rw [word, BitVec.ofInt_mul, BitVec.ofInt_toInt, hpow, BitVec.shiftLeft_eq_mul_twoPow]

end Number

/-! ### Operators -/

namespace Action

open Number

def places (b : Int) : Nat := (b % 32).toNat

def GivesSigned (r : Except Fault Value) (x : BitVec 32) : Prop :=
  r = .ok (.int x.toInt) ∧ IsSigned x.toInt

def GivesUnsigned (r : Except Fault Value) (x : BitVec 32) : Prop :=
  r = .ok (.int x.toNat) ∧ IsUnsigned x.toNat

lemma shiftAmount_int (b : Int) : shiftAmount (.int b) = places b := by
  rw [shiftAmount, uint32_eq_toNat, joinBits_and_ones, places, toNat_natCast]
  have := toNat_word b
  omega

lemma bitwise_int {f : Bool → Bool → Bool} {g : BitVec 32 → BitVec 32 → BitVec 32}
    (hg : ∀ (x y : BitVec 32) i (hi : i < 32), (g x y)[i] = f x[i] y[i]) (a b : Int) :
    GivesSigned (.ok (bitwise f (.int a) (.int b))) (g (word a) (word b)) := by
  rw [bitwise, int32_eq_toInt, int32_eq_toInt, joinBits_toInt hg]
  exact ⟨rfl, isSigned_toInt _⟩

lemma invert_int (a : Int) : GivesSigned (.ok (invert (.int a))) (~~~word a) := by
  rw [invert, int32_eq_toInt, toInt_not]
  exact ⟨rfl, isSigned_toInt _⟩

lemma shiftLeft_int (a b : Int) :
    GivesSigned (.ok (shiftLeft (.int a) (.int b))) (word a <<< places b) := by
  rw [shiftLeft, shiftAmount_int, int32_eq_toInt, wrap32_eq_toInt, word_mul_pow]
  exact ⟨rfl, isSigned_toInt _⟩

lemma shiftRight_int (a b : Int) :
    GivesSigned (.ok (shiftRight (.int a) (.int b))) ((word a).sshiftRight (places b)) := by
  have h : (word a).toInt / Int.pow 2 (places b) = ((word a).sshiftRight (places b)).toInt := by
    rw [BitVec.toInt_sshiftRight, Int.shiftRight_eq_div_pow]
    rfl
  rw [shiftRight, shiftAmount_int, int32_eq_toInt, h]
  exact ⟨rfl, isSigned_toInt _⟩

lemma shiftRightUnsigned_int (a b : Int) :
    GivesUnsigned (.ok (shiftRightUnsigned (.int a) (.int b))) (word a >>> places b) := by
  have h : ((word a).toNat : Int) / Int.pow 2 (places b) = (word a >>> places b).toNat := by
    rw [BitVec.toNat_ushiftRight, Nat.shiftRight_eq_div_pow]
    rfl
  rw [shiftRightUnsigned, shiftAmount_int, uint32_eq_toNat, h]
  exact ⟨rfl, isUnsigned_toNat _⟩

/-- The operators on bits are those of a machine with words of 32 bits: on integers of any size they
give what the operation gives on the words of the integers, read with a sign but for the unsigned
shift. -/
theorem bits_of_words (a b : Int) :
    ((Value.int a).int32 = (word a).toInt ∧ (Value.int a).uint32 = (word a).toNat ∧
      ((word a).toNat : Int) = a % 0x100000000) ∧
    GivesSigned (unary .invert (.int a)) (~~~word a) ∧
    GivesSigned (binary .bitAnd (.int a) (.int b)) (word a &&& word b) ∧
    GivesSigned (binary .bitOr (.int a) (.int b)) (word a ||| word b) ∧
    GivesSigned (binary .xor (.int a) (.int b)) (word a ^^^ word b) ∧
    GivesSigned (binary .lshift (.int a) (.int b)) (word a <<< places b) ∧
    GivesSigned (binary .rshift (.int a) (.int b)) ((word a).sshiftRight (places b)) ∧
    GivesUnsigned (binary .urshift (.int a) (.int b)) (word a >>> places b) := by
  refine ⟨⟨int32_eq_toInt a, uint32_eq_toNat a, toNat_word a⟩, invert_int a, ?_, ?_, ?_,
    shiftLeft_int a b, shiftRight_int a b, shiftRightUnsigned_int a b⟩
  · exact bitwise_int (g := (· &&& ·)) (by simp) a b
  · exact bitwise_int (g := (· ||| ·)) (by simp) a b
  · exact bitwise_int (g := (· ^^^ ·)) (by simp) a b

end Action

end Overload
