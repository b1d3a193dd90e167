import Overload.Proofs.Number.Range
import Overload.Proofs.Number.ShortestInteger
import Overload.Proofs.Value.Converse

/-! Actions that fail on primitive values. -/

namespace Overload

open Option

/-! ### Numbers -/

namespace Num

open Number

def IsHuge : Num → Prop
  | .int n => rangeLimit ≤ n.natAbs
  | .float _ => False

def Clash (x y : Num) : Prop :=
  x.IsHuge ∧ y.isInt = false ∨ x.isInt = false ∧ y.IsHuge

def Untestable (x y : Num) : Prop := x.IsHuge ∨ x.isNaN = false ∧ y.IsHuge

def QuotientOverflows (x y : Num) : Prop :=
  ∃ a b, x = .int a ∧ y = .int b ∧ a % b ≠ 0 ∧ rangeLimit * b.natAbs ≤ a.natAbs

def DivOverflows (x y : Num) : Prop :=
  if y.isZero then x.IsHuge else Clash x y ∨ QuotientOverflows x y

def ModOverflows (x y : Num) : Prop := (x.isInt && y.isInt) = false ∧ Untestable x y

def PowOverflows (x y : Num) : Prop :=
  y.IsHuge ∧ (x.isUnit = true ∨ x.isNegative = true ∨
    if y.isNegative then x.isZero = true else x.isInt = true ∧ x.isZero = false)

variable {x y : Num}

lemma toFloat?_eq_none_iff : x.toFloat? = none ↔ x.IsHuge := by
  cases x with
  | int n => exact ofInt?_eq_none_iff n
  | float x => simp [toFloat?, IsHuge]

lemma isNaN?_eq_none_iff : x.isNaN? = none ↔ x.IsHuge := by
  cases x with
  | int n => rw [isNaN?, map_eq_none_iff, ofInt?_eq_none_iff, IsHuge]
  | float x => simp [isNaN?, IsHuge]

lemma isInfinite?_eq_none_iff : x.isInfinite? = none ↔ x.IsHuge := by
  cases x with
  | int n => rw [isInfinite?, map_eq_none_iff, ofInt?_eq_none_iff, IsHuge]
  | float x => simp [isInfinite?, IsHuge]

lemma isNaN_eq_of_isNaN? {b : Bool} (h : x.isNaN? = some b) : x.isNaN = b := by
  cases x with
  | int n =>
    obtain ⟨r, -, rfl⟩ := map_eq_some_iff.1 h
    rfl
  | float x => exact some.inj h

lemma not_isHuge_of_isZero (h : x.isZero = true) : ¬ x.IsHuge := by
  cases x with
  | int n =>
    have hzero : n = 0 := by simpa [isZero] using h
    simp [IsHuge, hzero, rangeLimit_pos.ne']
  | float x => exact id

lemma not_clash_int (a b : Int) : ¬ Clash (.int a) (.int b) := by
  simp [Clash, isInt]

lemma convert_eq_none_iff (h : (x.isInt && y.isInt) = false) (f : Float → Float → Num) :
    (do return f (← x.toFloat?) (← y.toFloat?)) = none ↔ Clash x y := by
  have hclash : Clash x y ↔ x.IsHuge ∨ y.IsHuge := by
    cases x <;> cases y <;> simp_all [Clash, IsHuge, isInt]
  rw [hclash, ← toFloat?_eq_none_iff, ← toFloat?_eq_none_iff]
  cases x.toFloat? <;> cases y.toFloat? <;> simp

lemma add?_eq_none_iff : x.add? y = none ↔ Clash x y := by
  cases x with
  | int a =>
    cases y with
    | int b => exact iff_of_false (some_ne_none _) (not_clash_int a b)
    | float y => apply convert_eq_none_iff rfl
  | float x => apply convert_eq_none_iff rfl

lemma sub?_eq_none_iff : x.sub? y = none ↔ Clash x y := by
  cases x with
  | int a =>
    cases y with
    | int b => exact iff_of_false (some_ne_none _) (not_clash_int a b)
    | float y => apply convert_eq_none_iff rfl
  | float x => apply convert_eq_none_iff rfl

lemma mul?_eq_none_iff : x.mul? y = none ↔ Clash x y := by
  cases x with
  | int a =>
    cases y with
    | int b => exact iff_of_false (some_ne_none _) (not_clash_int a b)
    | float y => apply convert_eq_none_iff rfl
  | float x => apply convert_eq_none_iff rfl

lemma divideByZero?_eq_none_iff : divideByZero? x y = none ↔ x.IsHuge := by
  rw [← isNaN?_eq_none_iff, divideByZero?]
  cases x.isNaN? with
  | none => simp
  | some b =>
    simp only [pure_def, bind_eq_bind, bind_some]
    split <;> simp

lemma quotientOverflows_int {a b : Int} : QuotientOverflows (.int a) (.int b) ↔
    a % b ≠ 0 ∧ rangeLimit * b.natAbs ≤ a.natAbs := by
  constructor
  · rintro ⟨a, b, ⟨⟩, ⟨⟩, h⟩
    exact h
  · intro h
    exact ⟨a, b, rfl, rfl, h⟩

lemma div?_eq_none_iff : x.div? y = none ↔ DivOverflows x y := by
  rw [DivOverflows]
  split
  · rename_i hy
    rw [div?.eq_def, if_pos hy, divideByZero?_eq_none_iff]
  · rename_i hy
    rw [div?.eq_def, if_neg hy]
    cases x with
    | int a =>
      cases y with
      | int b =>
        have hb : b ≠ 0 := by simpa [isZero] using hy
        rw [or_iff_right (not_clash_int a b), quotientOverflows_int]
        dsimp only
        split
        · rename_i hexact
          exact iff_of_false (some_ne_none _) fun h => h.1 hexact
        · rename_i hexact
          rw [map_eq_none_iff, ofQuotient?_eq_none_iff a hb, and_iff_right hexact]
      | float y =>
        rw [or_iff_left (by simp [QuotientOverflows])]
        apply convert_eq_none_iff rfl
    | float x =>
      rw [or_iff_left (by simp [QuotientOverflows])]
      apply convert_eq_none_iff rfl

lemma exists_isNaN? (h : ¬ x.IsHuge) : ∃ b, x.isNaN? = some b :=
  ne_none_iff_exists'.1 (mt isNaN?_eq_none_iff.1 h)

lemma exists_isInfinite? (h : ¬ x.IsHuge) : ∃ b, x.isInfinite? = some b :=
  ne_none_iff_exists'.1 (mt isInfinite?_eq_none_iff.1 h)

lemma exists_toFloat? (h : ¬ x.IsHuge) : ∃ r, x.toFloat? = some r :=
  ne_none_iff_exists'.1 (mt toFloat?_eq_none_iff.1 h)

lemma mod?_eq_none_iff : x.mod? y = none ↔ ModOverflows x y := by
  rw [ModOverflows]
  cases h : x.isInt && y.isInt with
  | true => cases x <;> cases y <;> simp_all [mod?, isInt]
  | false =>
    have hmod : x.mod? y = do
        if ← x.isNaN? then return nan
        if ← y.isNaN? then return nan
        if (← x.isInfinite?) || y.isZero then return nan
        if ← y.isInfinite? then return x
        return .float (remainder (← x.toFloat?) (← y.toFloat?)) := by
      cases x <;> cases y <;> trivial
    rw [hmod, and_iff_right rfl, Untestable]
    by_cases hx : x.IsHuge
    · simp [hx, isNaN?_eq_none_iff.2 hx]
    · obtain ⟨b, hb⟩ := exists_isNaN? hx
      rw [isNaN_eq_of_isNaN? hb]
      obtain ⟨i, hi⟩ := exists_isInfinite? hx
      obtain ⟨r, hr⟩ := exists_toFloat? hx
      by_cases hy : y.IsHuge
      · cases b <;> simp [hx, hy, hb, isNaN?_eq_none_iff.2 hy]
      · obtain ⟨b', hb'⟩ := exists_isNaN? hy
        obtain ⟨i', hi'⟩ := exists_isInfinite? hy
        obtain ⟨r', hr'⟩ := exists_toFloat? hy
        simp only [hx, hy, hb, hi, hr, hb', hi', hr', and_false, or_false, iff_false,
          bind_eq_bind, bind_some, pure_def]
        split_ifs <;> simp

lemma overflowPower?_eq_none_iff :
    overflowPower? x y = none ↔ x.isNegative = true ∧ y.IsHuge := by
  rw [overflowPower?, ← toFloat?_eq_none_iff]
  cases x.isNegative <;> cases y.toFloat? <;> simp

lemma floatPower?_eq_none_iff : floatPower? x y = none ↔ x.isNegative = true ∧ y.IsHuge := by
  rw [floatPower?]
  split
  · rename_i hy
    have hhuge : ¬ y.IsHuge := by simp [← toFloat?_eq_none_iff, hy]
    dsimp only
    split_ifs <;> simp [overflowPower?_eq_none_iff, hhuge]
  · exact overflowPower?_eq_none_iff

lemma general_eq_none_iff : pow?.general x y = none ↔
    y.IsHuge ∧ (x.isNegative = true ∨ x.isZero = true ∧ y.isNegative = true) := by
  rw [pow?.general]
  split
  · rename_i h
    rw [Bool.and_eq_true] at h
    rw [← toFloat?_eq_none_iff]
    cases y.toFloat? <;> simp [h]
  · rename_i h
    rw [Bool.and_eq_true] at h
    rw [floatPower?_eq_none_iff, or_iff_left h, and_comm]

lemma intPower?_eq_none_iff {a b : Int} :
    intPower? a b = none ↔ (Num.int b).IsHuge ∧ a.natAbs ≠ 1 ∧ a ≠ 0 := by
  rw [intPower?, IsHuge, ← ofInt?_eq_none_iff]
  split_ifs
  · simp; omega
  · simp; omega
  · cases ofInt? b <;> simp; omega

def finitePower? : Num → Num → Option Num
  | .int a, .int b => if 0 ≤ b then intPower? a b else pow?.general (.int a) (.int b)
  | x, y => pow?.general x y

lemma pow?_eq : x.pow? y =
    if y.isNaN then some nan
    else if y.isZero then some (.int 1)
    else if x.isNaN then some nan
    else if x.isUnit then
      y.isInfinite?.bind fun b => if b then some nan else finitePower? x y
    else finitePower? x y := by
  cases x <;> cases y <;> simp [pow?, finitePower?, isNaN]

lemma finitePower?_eq_none_iff (h : x.isUnit = false) : finitePower? x y = none ↔
    y.IsHuge ∧ (x.isNegative = true ∨
      if y.isNegative then x.isZero = true else x.isInt = true ∧ x.isZero = false) := by
  cases y with
  | float y => cases x <;> simp [finitePower?, general_eq_none_iff, IsHuge]
  | int b =>
    cases x with
    | int a =>
      have ha : a.natAbs ≠ 1 := by simpa [isUnit] using h
      rw [finitePower?]
      split
      · rename_i hb
        rw [intPower?_eq_none_iff]
        apply and_congr_right
        intro
        simp only [isNegative, isZero, isInt, decide_eq_true_eq, if_neg (not_lt.2 hb),
          beq_eq_false_iff_ne, true_and]
        omega
      · rename_i hb
        rw [general_eq_none_iff]
        simp [isNegative, not_le.1 hb]
    | float x =>
      rw [finitePower?.eq_def, general_eq_none_iff]
      apply and_congr_right
      intro
      by_cases hb : b < 0 <;> simp [isNegative, isInt, hb]

lemma isHuge_of_finitePower? (h : finitePower? x y = none) : y.IsHuge := by
  rw [finitePower?.eq_def] at h
  split at h
  · split at h
    · exact (intPower?_eq_none_iff.1 h).1
    · exact (general_eq_none_iff.1 h).1
  · exact (general_eq_none_iff.1 h).1

lemma tests_of_isNaN (h : x.isNaN = true) :
    x.isUnit = false ∧ x.isNegative = false ∧ x.isZero = false ∧ x.isInt = false := by
  cases x with
  | int n => cases h
  | float x =>
    have hnan : (Num.float x).isNaN? = some true := congrArg some h
    have hnone (y : Float) : x.toModel.compare y.toModel = none := by
      rw [← compare?_float]
      exact compare?_of_isNaN hnan _
    have hlt : ¬ x < 0.0 := by
      rw [lt_iff, hnone]
      exact nofun
    simp [isUnit, isNegative, isZero, isInt, beq_eq, hnone, hlt]

lemma Clash.isHuge (h : Clash x y) : x.IsHuge ∨ y.IsHuge :=
  h.imp And.left And.right

lemma Untestable.isHuge (h : Untestable x y) : x.IsHuge ∨ y.IsHuge :=
  h.imp_right And.right

lemma DivOverflows.isHuge (h : DivOverflows x y) : x.IsHuge ∨ y.IsHuge := by
  rw [DivOverflows] at h
  split at h
  · exact .inl h
  · rename_i hzero
    obtain h | ⟨a, b, rfl, rfl, -, hle⟩ := h
    · exact h.isHuge
    · have hb : 0 < b.natAbs := by
        apply Int.natAbs_pos.2
        rintro rfl
        exact hzero rfl
      exact .inl (le_trans (Nat.le_mul_of_pos_right _ hb) hle)

lemma pow?_eq_none_iff : x.pow? y = none ↔ PowOverflows x y := by
  rw [pow?_eq, PowOverflows]
  by_cases hy : y.IsHuge
  · have hnan : y.isNaN = false := by
      cases y with
      | int b => rfl
      | float y => exact hy.elim
    have hzero : y.isZero = false := Bool.eq_false_iff.2 fun h => not_isHuge_of_isZero h hy
    rw [hnan, hzero, isInfinite?_eq_none_iff.2 hy]
    cases hx : x.isNaN with
    | true => simp [tests_of_isNaN hx]
    | false =>
      cases hunit : x.isUnit with
      | true => simp [hy]
      | false => simp [finitePower?_eq_none_iff hunit, hy]
  · obtain ⟨b, hb⟩ := exists_isInfinite? hy
    have hfinite : finitePower? x y ≠ none := mt isHuge_of_finitePower? hy
    rw [hb, bind_some]
    split_ifs <;> simp [hy, hfinite]

end Num

/-! ### Actions -/

namespace Value

def IsHuge : Value → Prop
  | .num n => n.IsHuge
  | _ => False

def IsTorn : Value → Prop
  | .str s => s.string? = none
  | _ => False

lemma isHuge_of_not_isWritable {v : Value} (hv : v.isPrimitive = true)
    (h : v.isWritable = false) : v.number.IsHuge := by
  cases v with
  | num n =>
    cases n with
    | int n =>
      have hlong : Num.digitLimit < Number.decimalLength n.natAbs := by
        simpa [isWritable, Num.isWritable] using h
      have hpos : 0 < n.natAbs := by
        rw [Nat.pos_iff_ne_zero]
        intro hzero
        rw [hzero] at hlong
        exact absurd hlong (by decide)
      calc Number.rangeLimit ≤ 10 ^ Num.digitLimit := Number.rangeLimit_le_ten_pow (by decide)
        _ ≤ n.natAbs := Number.pow_le_of_lt_decimalLength hpos hlong
    | float x => cases h
  | undefined | null | bool _ | str _ => cases h
  | _ => cases hv

end Value

namespace Action

open Value

/-- The faults of a computation are just the ones with a cause. -/
def FailsWith {α : Type} (r : Except Fault α) (cause : Fault → Prop) : Prop :=
  ∀ f, r = .error f ↔ cause f

variable {α β : Type} {p : Prop} {cause : Fault → Prop}

lemma failsWith_ok (x : α) (h : ∀ f, ¬ cause f) : FailsWith (.ok x) cause :=
  fun f => iff_of_false nofun (h f)

lemma failsWith_error (f : Fault) (h : ∀ f', cause f' ↔ f' = f) :
    FailsWith (.error f : Except Fault α) cause := by
  intro f'
  rw [h, Except.error.injEq, eq_comm]

lemma failsWith_inRange {o : Option α} (h : o = none ↔ p) :
    FailsWith (inRange o) fun f => f = .tooLarge ∧ p := by
  cases o with
  | none => exact failsWith_error _ fun f => and_iff_left (h.1 rfl)
  | some x => exact failsWith_ok x fun f hf => some_ne_none x (h.2 hf.2)

lemma FailsWith.bind_pure {r : Except Fault α} (h : FailsWith r cause) (g : α → β) :
    FailsWith (r >>= fun x => pure (g x)) cause := by
  intro f
  rw [← h f]
  cases r <;> simp

lemma FailsWith.map {r : Except Fault α} (h : FailsWith r cause) (g : α → β) :
    FailsWith (r.map g) cause := by
  intro f
  rw [← h f]
  cases r <;> simp [Except.map]

lemma failsWith_ofNum {o : Option Num} (h : o = none ↔ p) :
    FailsWith (ofNum o) fun f => f = .tooLarge ∧ p :=
  FailsWith.map (failsWith_inRange h) Value.num

lemma truthy_failsWith (a : Value) : FailsWith a.truthy fun f => f = .tooLarge ∧ a.IsHuge := by
  cases a with
  | num n =>
    rw [truthy]
    split
    · rename_i h
      exact failsWith_ok _ fun f hf => Num.not_isHuge_of_isZero h hf.2
    · apply failsWith_inRange
      rw [map_eq_none_iff, Num.isNaN?_eq_none_iff, Value.IsHuge]
  | _ => exact failsWith_ok _ fun f hf => hf.2

/-! Every operator has its own share of the integers out of range. A sum with a text fails if the
other operand is too long to be written, and a comparison of texts if one cannot be encoded. -/

def Overflows (o : BinaryOp) (a b : Value) : Prop :=
  match o with
  | .add => (isText a || isText b) = false ∧ Num.Clash a.number b.number
  | .sub | .mul => Num.Clash a.number b.number
  | .div => Num.DivOverflows a.number b.number
  | .mod => Num.ModOverflows a.number b.number
  | .pow => Num.PowOverflows a.number b.number
  | .lt | .le | .gt | .ge =>
    (isText a && isText b) = false ∧ Num.Untestable a.number b.number
  | .and | .or => a.IsHuge
  | _ => False

def Overruns (o : BinaryOp) (a b : Value) : Prop :=
  o = .add ∧ (isText a || isText b) = true ∧ (a.isWritable = false ∨ b.isWritable = false)

def Tears (o : BinaryOp) (a b : Value) : Prop :=
  o ∈ [BinaryOp.lt, .le, .gt, .ge] ∧ (isText a && isText b) = true ∧ (a.IsTorn ∨ b.IsTorn)

def Cause (o : BinaryOp) (a b : Value) (f : Fault) : Prop :=
  f = .tooLarge ∧ Overflows o a b ∨ f = .tooLong ∧ Overruns o a b ∨
    f = .notEncodable ∧ Tears o a b

variable {a b : Value} {o : BinaryOp}

lemma FailsWith.of_overflows {r : Except Fault α}
    (h : FailsWith r fun f => f = .tooLarge ∧ Overflows o a b) (hadd : o ≠ .add)
    (hrelation : o ∉ [BinaryOp.lt, .le, .gt, .ge]) : FailsWith r (Cause o a b) := by
  intro f
  rw [h f, Cause, or_iff_left]
  rintro (⟨-, hlong⟩ | ⟨-, htorn⟩)
  · exact hadd hlong.1
  · exact hrelation htorn.1

lemma encode_failsWith (s : Spelling) :
    FailsWith (encode s) fun f => f = .notEncodable ∧ IsTorn (.str s) := by
  rw [encode, IsTorn]
  cases s.string? with
  | none => exact failsWith_error _ fun f => and_iff_left rfl
  | some s => exact failsWith_ok _ fun f hf => some_ne_none s hf.2

lemma write_failsWith (v : Value) :
    FailsWith v.write fun f => f = .tooLong ∧ v.isWritable = false := by
  rw [write]
  split
  · rename_i h
    exact failsWith_ok _ fun f hf => Bool.false_ne_true (hf.2.symm.trans h)
  · rename_i h
    exact failsWith_error _ fun f => and_iff_left (Bool.eq_false_iff.2 h)

/-- Two computations that fail alike, one after the other. -/
lemma FailsWith.pair {γ : Type} {r : Except Fault α} {r' : Except Fault β} {f₀ : Fault}
    {q : Prop} (h : FailsWith r fun f => f = f₀ ∧ p) (h' : FailsWith r' fun f => f = f₀ ∧ q)
    (g : α → β → γ) :
    FailsWith (do let x ← r; let y ← r'; pure (g x y)) fun f => f = f₀ ∧ (p ∨ q) := by
  intro f
  have hp : r = .error f ↔ f = f₀ ∧ p := h f
  have hq : r' = .error f ↔ f = f₀ ∧ q := h' f
  refine Iff.trans ?_ and_or_left.symm
  rw [← hp, ← hq]
  cases r with
  | error e =>
    obtain ⟨rfl, -⟩ := (h e).1 rfl
    simpa [eq_comm] using fun hf => (hq.1 hf).1
  | ok x => cases r' <;> simp

lemma numberOrder_failsWith (x y : Num) :
    FailsWith (numberOrder x y) fun f => f = .tooLarge ∧ Num.Untestable x y := by
  rw [numberOrder, Num.Untestable]
  by_cases hx : x.IsHuge
  · rw [Num.isNaN?_eq_none_iff.2 hx]
    exact failsWith_error _ fun f => and_iff_left (.inl hx)
  · obtain ⟨n, hn⟩ := Num.exists_isNaN? hx
    rw [hn, Num.isNaN_eq_of_isNaN? hn, or_iff_right hx]
    cases n with
    | true => exact failsWith_ok _ fun f hf => absurd hf.2.1 (by decide)
    | false =>
      rw [and_iff_right rfl]
      by_cases hy : y.IsHuge
      · rw [Num.isNaN?_eq_none_iff.2 hy]
        exact failsWith_error _ fun f => and_iff_left hy
      · obtain ⟨m, hm⟩ := Num.exists_isNaN? hy
        rw [hm]
        cases m <;> exact failsWith_ok _ fun f hf => hy hf.2

lemma compare?_failsWith (ha : a.isPrimitive = true) (hb : b.isPrimitive = true)
    (ho : o ∈ [BinaryOp.lt, .le, .gt, .ge]) : FailsWith (compare? a b) (Cause o a b) := by
  by_cases htexts : (isText a && isText b) = true
  · have hover : ¬ Overflows o a b := by
      fin_cases ho <;> exact fun h => Bool.false_ne_true (h.1.symm.trans htexts)
    obtain ⟨s, rfl⟩ : ∃ s, a = .str s := by cases a <;> simp_all [isText]
    obtain ⟨t, rfl⟩ : ∃ t, b = .str t := by cases b <;> simp_all [isText]
    intro f
    rw [compare?_str, (encode_failsWith s).pair (encode_failsWith t) _ f, Cause, Tears, Overruns]
    have hadd : o ≠ .add := by fin_cases ho <;> decide
    simp [hover, hadd, ho, htexts]
  · rw [Bool.not_eq_true] at htexts
    have hlarge : ∀ f, Cause o a b f ↔
        f = .tooLarge ∧ Num.Untestable a.number b.number := by
      intro f
      rw [Cause, Tears, Overruns, htexts]
      fin_cases ho <;> simp [Overflows, htexts]
    have hnumbers : compare? a b = numberOrder a.number b.number := by
      rw [compare?.eq_def, toPrimitive_of_isPrimitive ha, toPrimitive_of_isPrimitive hb]
      cases a <;> cases b <;> first | rfl | cases htexts
    intro f
    rw [hlarge, hnumbers]
    exact numberOrder_failsWith _ _ f

lemma ordered_failsWith (ha : a.isPrimitive = true) (hb : b.isPrimitive = true)
    (ho : o ∈ [BinaryOp.lt, .le, .gt, .ge]) (test : Ordering → Bool) :
    FailsWith ((ordered test a b).map Value.bool) (Cause o a b) :=
  ((compare?_failsWith ha hb ho).bind_pure _).map _

lemma add_failsWith (ha : a.isPrimitive = true) (hb : b.isPrimitive = true) :
    FailsWith (add a b) (Cause .add a b) := by
  intro f
  rw [add, toPrimitive_of_isPrimitive ha, toPrimitive_of_isPrimitive hb]
  by_cases htext : (isText a || isText b) = true
  · simp only [ok_bind, if_pos htext]
    rw [(write_failsWith a).pair (write_failsWith b) _ f]
    simp [Cause, Overflows, Overruns, Tears, htext]
  · simp only [ok_bind, if_neg htext]
    rw [Bool.not_eq_true] at htext
    rw [failsWith_ofNum Num.add?_eq_none_iff f]
    simp [Cause, Overflows, Overruns, Tears, htext]

lemma arithmetic_of_isPrimitive (ha : a.isPrimitive = true) (hb : b.isPrimitive = true)
    (f : Num → Num → Option Num) : arithmetic f a b = ofNum (f a.number b.number) := by
  rw [arithmetic, toPrimitive_of_isPrimitive ha, toPrimitive_of_isPrimitive hb]
  rfl

lemma arithmetic_failsWith {f : Num → Num → Option Num} (ha : a.isPrimitive = true)
    (hb : b.isPrimitive = true) (h : f a.number b.number = none ↔ Overflows o a b)
    (hadd : o ≠ .add) (hrelation : o ∉ [BinaryOp.lt, .le, .gt, .ge]) :
    FailsWith (arithmetic f a b) (Cause o a b) := by
  rw [arithmetic_of_isPrimitive ha hb]
  exact (failsWith_ofNum h).of_overflows hadd hrelation

lemma unary_failsWith (o : UnaryOp) (ha : a.isPrimitive = true) :
    FailsWith (unary o a) fun f => f = .tooLarge ∧ o = .not ∧ a.IsHuge := by
  cases o with
  | not =>
    simp only [true_and]
    exact (truthy_failsWith a).bind_pure _
  | pos | neg | invert =>
    rw [unary, toPrimitive_of_isPrimitive ha]
    exact failsWith_ok _ fun f hf => UnaryOp.noConfusion hf.2.1
  | typeof => exact failsWith_ok _ fun f hf => UnaryOp.noConfusion hf.2.1

lemma onWords_of_isPrimitive (ha : a.isPrimitive = true) (hb : b.isPrimitive = true)
    (f : Value → Value → Value) : onWords f a b = .ok (f a b) := by
  rw [onWords, toPrimitive_of_isPrimitive ha, toPrimitive_of_isPrimitive hb]
  rfl

lemma domain_ne_object (ha : a.isPrimitive = true) : a.domain ≠ .object := by
  cases a <;> first | exact Domain.noConfusion | cases ha

lemma equals_of_isPrimitive (ha : a.isPrimitive = true) (hb : b.isPrimitive = true) :
    equals a b = .ok (looseEquals a b) := by
  rw [equals, if_neg fun h => domain_ne_object ha h.1, if_neg fun h => domain_ne_object hb h.1]
  rfl

lemma binary_failsWith (hin : o ≠ .isIn) (hof : o ≠ .instanceOf) (ha : a.isPrimitive = true)
    (hb : b.isPrimitive = true) : FailsWith (binary o a b) (Cause o a b) := by
  cases o with
  | add => exact add_failsWith ha hb
  | sub => exact arithmetic_failsWith ha hb Num.sub?_eq_none_iff (by decide) (by decide)
  | mul => exact arithmetic_failsWith ha hb Num.mul?_eq_none_iff (by decide) (by decide)
  | div => exact arithmetic_failsWith ha hb Num.div?_eq_none_iff (by decide) (by decide)
  | mod => exact arithmetic_failsWith ha hb Num.mod?_eq_none_iff (by decide) (by decide)
  | pow => exact arithmetic_failsWith ha hb Num.pow?_eq_none_iff (by decide) (by decide)
  | lt | le | gt | ge => exact ordered_failsWith ha hb (by decide) _
  | and | or => exact ((truthy_failsWith a).bind_pure _).of_overflows (by decide) (by decide)
  | isIn => exact absurd rfl hin
  | instanceOf => exact absurd rfl hof
  | lshift | rshift | urshift | xor | bitAnd | bitOr =>
    rw [binary, onWords_of_isPrimitive ha hb]
    exact (failsWith_ok _ fun f hf => hf.2).of_overflows (by decide) (by decide)
  | eq | ne =>
    rw [binary, equals_of_isPrimitive ha hb]
    exact (failsWith_ok _ fun f hf => hf.2).of_overflows (by decide) (by decide)
  | seq | sne | nullish =>
    exact (failsWith_ok _ fun f hf => hf.2).of_overflows (by decide) (by decide)

lemma isHuge_of_overflows (h : Overflows o a b) : a.number.IsHuge ∨ b.number.IsHuge := by
  cases o with
  | add => exact h.2.isHuge
  | sub | mul => exact Num.Clash.isHuge h
  | div => exact Num.DivOverflows.isHuge h
  | mod => exact h.2.isHuge
  | pow => exact .inr h.1
  | lt | le | gt | ge => exact h.2.isHuge
  | and | or =>
    cases a with
    | num n => exact .inl h
    | _ => exact h.elim
  | _ => exact h.elim

/-- On primitive operands the actions fail for three causes only: an integer out of the range of
doubles, where `!` and the logical operators meet it, arithmetic joins it to a double or has no
exact quotient, and comparisons test it for NaN; an integer too long to be written, where it is
added to a text; and a lone surrogate, where texts are compared. On operands without these every
action gives a value. -/
theorem primitive_actions_fail_iff {a b : Value} (ha : a.isPrimitive = true)
    (hb : b.isPrimitive = true) :
    (∀ o f, unary o a = .error f ↔ f = .tooLarge ∧ o = .not ∧ a.IsHuge) ∧
    (∀ o f, o ≠ .isIn → o ≠ .instanceOf → (binary o a b = .error f ↔ Cause o a b f)) ∧
    (¬ a.number.IsHuge → ¬ b.number.IsHuge → ¬ a.IsTorn → ¬ b.IsTorn →
      (∀ o, ∃ v, unary o a = .ok v) ∧
      ∀ o, o ≠ .isIn → o ≠ .instanceOf → ∃ v, binary o a b = .ok v) := by
  refine ⟨fun o => unary_failsWith o ha, fun o f hin hof => binary_failsWith hin hof ha hb f, ?_⟩
  intro hahuge hbhuge hatorn hbtorn
  refine ⟨fun o => ?_, fun o hin hof => ?_⟩
  · cases h : unary o a with
    | ok v => exact ⟨v, rfl⟩
    | error f =>
      have hhuge := ((unary_failsWith o ha f).1 h).2.2
      cases a with
      | num n => exact absurd hhuge hahuge
      | _ => exact hhuge.elim
  · cases h : binary o a b with
    | ok v => exact ⟨v, rfl⟩
    | error f =>
      obtain ⟨-, hover⟩ | ⟨-, -, -, hlong⟩ | ⟨-, -, -, htorn⟩ :=
        (binary_failsWith hin hof ha hb f).1 h
      · exact absurd (isHuge_of_overflows hover) (not_or.2 ⟨hahuge, hbhuge⟩)
      · exact hlong.elim (fun h => absurd (isHuge_of_not_isWritable ha h) hahuge)
          fun h => absurd (isHuge_of_not_isWritable hb h) hbhuge
      · exact absurd htorn (not_or.2 ⟨hatorn, hbtorn⟩)

lemma isHuge_ten_pow : (Num.int (10 ^ 400 : Nat)).IsHuge := by
  rw [Num.IsHuge, Int.natAbs_natCast]
  exact Number.rangeLimit_le_ten_pow (Nat.le_refl _)

theorem primitive_actions_fail_iff_difference :
    binary .sub (.int (10 ^ 400 : Nat)) (.num Num.nan) = .error .tooLarge ∧
    ∃ v, binary .sub (.int 1) (.num Num.nan) = .ok v := by
  constructor
  · refine ((primitive_actions_fail_iff rfl rfl).2.1 .sub _ nofun nofun).2 (.inl ⟨rfl, ?_⟩)
    exact .inl ⟨isHuge_ten_pow, rfl⟩
  · have hone : ¬ (Num.int 1).IsHuge := Nat.not_le.2 Number.one_lt_rangeLimit
    exact ((primitive_actions_fail_iff (a := .int 1) (b := .num Num.nan) rfl rfl).2.2
      hone id id id).2 .sub nofun nofun

theorem negation_of_large_integer_fails :
    unary .not (.int (10 ^ 400 : Nat)) = .error .tooLarge :=
  (unary_failsWith .not rfl _).2 ⟨rfl, rfl, isHuge_ten_pow⟩

end Action

end Overload
