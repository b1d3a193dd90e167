import Overload.Action
import Overload.Proofs.Failing

/-! Operands that change places. -/

namespace Overload

open Ordering Overload.Action Except

variable {a b x y : Value} {o : BinaryOp}

/-! ### Doubles -/

namespace Number

open Float.Model

lemma sign_compare_swap (s t : UnpackedFloat.Sign) : compare s t = (compare t s).swap := by
  cases s <;> cases t <;> rfl

lemma unpacked_compare_swap (x y : UnpackedFloat) :
    x.compare y = (y.compare x).map swap := by
  cases x with
  | notANumber => cases y <;> rfl
  | infinity s =>
    cases y with
    | infinity t => exact congrArg some (sign_compare_swap s t)
    | _ => cases s <;> rfl
  | zero s =>
    cases y with
    | infinity t | finite t => cases t <;> rfl
    | _ => rfl
  | finite s m e =>
    cases y with
    | notANumber => cases s <;> rfl
    | infinity t => cases t <;> rfl
    | zero t => cases s <;> rfl
    | finite t n f =>
      have horder : (compare e f).then (compare m n) =
          ((compare f e).then (compare n m)).swap := by
        rw [swap_then, Int.compare_swap, Nat.compare_swap]
      cases s with
      | negative =>
        cases t with
        | negative => exact congrArg (fun o => some o.swap) horder
        | positive => rfl
      | positive =>
        cases t with
        | negative => rfl
        | positive => exact congrArg some horder

lemma lt_iff (x y : Float) : x < y ↔ x.toModel.compare y.toModel = some .lt := by
  simp [LT.lt, Float.lt, Float.Model.lt, UnpackedFloat.lt, Float.Model.compare]

lemma beq_eq (x y : Float) : (x == y) = (x.toModel.compare y.toModel == some .eq) := rfl

end Number

namespace Num

open Number Float.Model

lemma order_of_tests {order : Option Ordering} {p q r : Prop} [Decidable p] [Decidable q]
    [Decidable r] (hp : p ↔ order = some .lt) (hq : q ↔ order = some .gt)
    (hr : r ↔ order = some .eq) :
    (if p then some Ordering.lt else if q then some .gt else if r then some .eq else none) =
      order := by
  rcases order with _ | _ | _ | _ <;> simp_all

lemma compare?_float (x y : Float) :
    compare? (.float x) (.float y) = x.toModel.compare y.toModel := by
  have hgt : y < x ↔ x.toModel.compare y.toModel = some .gt := by
    rw [lt_iff]
    simp only [Float.Model.compare, unpacked_compare_swap x.toModel.unpack]
    generalize y.toModel.unpack.compare x.toModel.unpack = order
    rcases order with _ | _ | _ | _ <;> simp
  exact order_of_tests (lt_iff x y) hgt (by rw [beq_eq, beq_iff_eq])

lemma compare?_swap (a b : Num) : a.compare? b = (b.compare? a).map swap := by
  cases a with
  | int a =>
    cases b with
    | int b => simp [compare?, Int.compare_swap]
    | float y =>
      simp only [compare?]
      split
      · rfl
      · split
        · split <;> rfl
        · rfl
  | float x =>
    cases b with
    | int b =>
      simp only [compare?]
      split
      · rfl
      · split
        · split <;> rfl
        · simp
    | float y =>
      rw [compare?_float, compare?_float]
      exact unpacked_compare_swap _ _

lemma compare?_of_isNaN {a : Num} (h : a.isNaN? = some true) (b : Num) : a.compare? b = none := by
  cases a with
  | int n => simp [isNaN?] at h
  | float x =>
    have hx : x.isNaN = true := Option.some.inj h
    cases b with
    | int b => rw [compare?, if_pos hx]
    | float y =>
      rw [compare?_float, Float.Model.compare]
      have hunpack : x.toModel.unpack.isNaN = true := hx
      cases hu : x.toModel.unpack with
      | notANumber => rfl
      | _ =>
        rw [hu] at hunpack
        exact absurd hunpack Bool.false_ne_true

lemma equal_comm (a b : Num) : a.equal b = b.equal a := by
  rw [equal, equal, compare?_swap a b]
  rcases b.compare? a with _ | _ | _ | _ <;> rfl

end Num

lemma Text.compareUnits_swap (us vs : List Nat) :
    compareUnits us vs = (compareUnits vs us).swap := by
  induction us generalizing vs with
  | nil => cases vs <;> rfl
  | cons u us ih =>
    cases vs with
    | nil => rfl
    | cons v vs => simp [compareUnits, swap_then, Nat.compare_swap, ih vs]

/-! ### Equality of values -/

lemma Class.same_comm (c d : Class) : c.same d = d.same c := by
  cases c <;> cases d <;> simp [Class.same, BEq.comm]

namespace Value

lemma identical_comm (a b : Value) : identical a b = identical b a := by
  cases a <;> cases b <;> simp [identical, BEq.comm, Bool.and_comm, Class.same_comm]

lemma strictEquals_comm (a b : Value) : strictEquals a b = strictEquals b a := by
  cases a <;> cases b <;> simp [strictEquals, identical_comm, BEq.comm, Num.equal_comm]

lemma isNullish_iff (v : Value) :
    v.isNullish = true ↔ v.domain = .undefined ∨ v.domain = .null := by
  cases v <;> simp [isNullish, domain]

lemma looseEquals_comm (a b : Value) : looseEquals a b = looseEquals b a := by
  fun_induction looseEquals a b with
  | case1 a b h => rw [looseEquals, if_pos h.symm, strictEquals_comm]
  | case2 a b h hn =>
    rw [looseEquals, if_neg (Ne.symm h), Bool.or_comm, if_pos hn, Bool.and_comm]
  | case3 a b h hn ha hb | case4 a b h hn ha hb | case5 a b h hn ha ih | case6 a b h hn hb ha ih
  | case7 a b h hn ha hb ih | case8 a b h hn ha hb ih | case9 a b h hn ha hb ih
  | case10 a b h hn ha hb ih =>
    -- The exchanged operands meet the rule for the other side, which makes the same conversion.
    rw [looseEquals.eq_def b a, if_neg (Ne.symm h), Bool.or_comm, if_neg hn]
    split <;> simp_all [Num.equal_comm]
  | case11 a b h hn =>
    -- No two domains are left.
    cases ha : a.domain <;> cases hb : b.domain <;> simp_all [isNullish_iff]

lemma equals_comm (a b : Value) : equals a b = equals b a := by
  rw [equals, equals, looseEquals_comm]
  -- Only one of the operands is converted, since an object is not converted for an object.
  by_cases ha : a.domain = .object ∧ b.domain.isConverted = true
  · simp [ha, show Domain.object.isConverted = false from rfl]
  · simp [ha]

/-! ### The order of values -/

lemma primitive_of_toPrimitive {p : Value} (h : a.toPrimitive = .ok p) : p = a.primitive := by
  rw [toPrimitive] at h
  split at h
  · exact (ok.inj h).symm
  · cases h

def unitsOf : Value → List Nat
  | .str s => (s.string?.map Text.bytes).getD []
  | _ => []

def order (p q : Value) : Option Ordering :=
  if isText p && isText q then some (Text.compareUnits (unitsOf p) (unitsOf q))
  else p.number.compare? q.number

lemma order_swap (p q : Value) : order p q = (order q p).map swap := by
  rw [order, order, Bool.and_comm]
  split
  · exact congrArg some (Text.compareUnits_swap _ _)
  · exact Num.compare?_swap _ _

lemma inRange_eq_ok {α : Type} {x : Option α} {y : α} : inRange x = .ok y ↔ x = some y := by
  cases x <;> simp [inRange]

lemma unitsOf_of_encode {s : Spelling} {us : List Nat} (h : encode s = .ok us) :
    unitsOf (.str s) = us := by
  rw [encode] at h
  split at h
  · rename_i hs
    rw [unitsOf, hs]
    exact ok.inj h
  · cases h

lemma compare?_eq_ok {x : Option Ordering} (h : compare? a b = .ok x) :
    x = order a.primitive b.primitive := by
  obtain ⟨p, hp, h⟩ := except_bind_eq_ok.1 h
  obtain ⟨q, hq, h⟩ := except_bind_eq_ok.1 h
  rw [← primitive_of_toPrimitive hp, ← primitive_of_toPrimitive hq]
  split at h
  · obtain ⟨us, hus, h⟩ := except_bind_eq_ok.1 h
    obtain ⟨vs, hvs, h⟩ := except_bind_eq_ok.1 h
    rw [order, unitsOf_of_encode hus, unitsOf_of_encode hvs]
    exact (ok.inj h).symm
  · rename_i hne
    have htexts : (isText p && isText q) = false := by
      cases p <;> cases q <;> simp_all [isText]
    rw [order, htexts, if_neg Bool.false_ne_true]
    obtain ⟨n, hn, h⟩ := except_bind_eq_ok.1 h
    split at h
    · rw [Num.compare?_of_isNaN (by simp_all [inRange_eq_ok])]
      exact (ok.inj h).symm
    · obtain ⟨m, hm, h⟩ := except_bind_eq_ok.1 h
      split at h
      · rw [Num.compare?_swap, Num.compare?_of_isNaN (by simp_all [inRange_eq_ok])]
        exact (ok.inj h).symm
      · exact (ok.inj h).symm

lemma compare?_swap {x y : Option Ordering} (hab : compare? a b = .ok x)
    (hba : compare? b a = .ok y) : y = x.map swap := by
  rw [compare?_eq_ok hab, compare?_eq_ok hba, order_swap]

lemma ordered_swap {f g : Ordering → Bool} (h : ∀ o, g o.swap = f o) {r s : Bool}
    (hab : ordered f a b = .ok r) (hba : ordered g b a = .ok s) : r = s := by
  obtain ⟨x, hx, hr⟩ := except_bind_eq_ok.1 hab
  obtain ⟨y, hy, hs⟩ := except_bind_eq_ok.1 hba
  obtain rfl := ok.inj hr
  obtain rfl := ok.inj hs
  rw [compare?_swap hx hy]
  cases x with
  | none => rfl
  | some order => exact (h order).symm

end Value

/-! ### Actions -/

namespace Action

open Value

lemma map_eq_ok {α β : Type} {f : α → β} {r : Except Fault α} {y : β} :
    r.map f = .ok y ↔ ∃ x, r = .ok x ∧ f x = y := by
  cases r <;> simp [Except.map]

lemma map_ordered_swap {f g : Ordering → Bool} (h : ∀ o, g o.swap = f o)
    (hba : (ordered g b a).map .bool = .ok x) (hab : (ordered f a b).map .bool = .ok y) :
    x = y := by
  obtain ⟨r, hr, rfl⟩ := map_eq_ok.1 hab
  obtain ⟨s, hs, rfl⟩ := map_eq_ok.1 hba
  rw [ordered_swap h hr hs]

lemma binary_comm (h : o.converse? = some o) (a b : Value) : binary o b a = binary o a b := by
  cases o <;> cases h
  case eq => rw [binary, equals_comm, binary]
  case ne => rw [binary, equals_comm, binary]
  case seq => rw [binary, strictEquals_comm, binary]
  case sne => rw [binary, strictEquals_comm, binary]

lemma binary_converse {c : BinaryOp} (h : o.converse? = some c) (hba : binary c b a = .ok x)
    (hab : binary o a b = .ok y) : x = y := by
  cases o <;> cases h
  case eq | ne | seq | sne =>
    rw [binary_comm rfl] at hba
    exact ok.inj (hba.symm.trans hab)
  case lt => exact map_ordered_swap (fun _ => isGT_swap) hba hab
  case le => exact map_ordered_swap (fun _ => isGE_swap) hba hab
  case gt => exact map_ordered_swap (fun _ => isLT_swap) hba hab
  case ge => exact map_ordered_swap (fun _ => isLE_swap) hba hab

lemma ofMember_swapped (hba : ofMember o.swapped b a = .ok x)
    (hab : ofMember o.direct a b = .ok y) : x = y := by
  cases hc : o.converse? with
  | some c =>
    simp only [BinaryOp.swapped, hc] at hba
    exact binary_converse hc hba hab
  | none =>
    -- A reversed member takes its operands back to their places.
    simp only [BinaryOp.swapped, hc] at hba
    exact ok.inj (hba.symm.trans hab)

lemma lookup_reversedTable (o : BinaryOp) :
    reversedTable.lookup o.direct.name = some o.swapped.name := by
  cases o <;> rfl

/-- Every member has a counterpart, whose action on the exchanged operands gives the same result
wherever both give one. So equalities are symmetric, and the relations mirror each other. -/
theorem counterparts_agree :
    (∀ p ∈ binaryTable, ∃ counterpart, reversedTable.lookup p.2 = some counterpart ∧
      ∀ a b x y, binaryNamed counterpart b a = .ok x → binaryNamed p.2 a b = .ok y → x = y) ∧
    (∀ a b, looseEquals a b = looseEquals b a ∧ strictEquals a b = strictEquals b a) ∧
    ∀ a b r s, (lessThan a b = .ok r → greaterThan b a = .ok s → r = s) ∧
      (lessEqual a b = .ok r → greaterEqual b a = .ok s → r = s) := by
  refine ⟨?_, fun a b => ⟨looseEquals_comm a b, strictEquals_comm a b⟩, fun a b r s => ⟨?_, ?_⟩⟩
  · intro p hp
    obtain ⟨o, -, rfl⟩ := List.mem_map.1 hp
    refine ⟨o.swapped.name, lookup_reversedTable o, fun a b x y hba hab => ?_⟩
    rw [binaryNamed, Member.ofName?_swapped] at hba
    rw [binaryNamed, Member.ofName?_direct] at hab
    exact ofMember_swapped hba hab
  · exact ordered_swap fun _ => isGT_swap
  · exact ordered_swap fun _ => isGE_swap

theorem counterparts_agree_nested : ∃ counterpart x y,
    reversedTable.lookup "op_lt" = some counterpart ∧
    binaryNamed counterpart (.int 18) (.list 0 [.list 1 [.str " 0x11 "]]) = .ok x ∧
    binaryNamed "op_lt" (.list 0 [.list 1 [.str " 0x11 "]]) (.int 18) = .ok y ∧ x = y := by
  obtain ⟨counterpart, hc, h⟩ := counterparts_agree.1 ("<", "op_lt") (by decide +kernel)
  obtain rfl : "op_gt" = counterpart :=
    Option.some.inj ((lookup_reversedTable .lt).symm.trans hc)
  have hgt : binaryNamed "op_gt" (.int 18) (.list 0 [.list 1 [.str " 0x11 "]]) =
      .ok (.bool true) := rfl
  have hlt : binaryNamed "op_lt" (.list 0 [.list 1 [.str " 0x11 "]]) (.int 18) =
      .ok (.bool true) := rfl
  exact ⟨_, _, _, hc, hgt, hlt, h _ _ _ _ hgt hlt⟩

end Action

end Overload
