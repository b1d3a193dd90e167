import Overload.Proofs.Dispatch.Hooks

/-! Operands with a three-way comparator. -/

namespace Overload.Dispatch

open Invocation

variable {invoke : Invoke}

structure Compares {α : Type} (invoke : Invoke) (held : Value → Option α) (threeWay : α → α → Int)
    (w : Value) : Prop where
  noSingle : NoSingle w
  noAction : ∀ f ≠ Family.comparison, lookup w f.member = none
  hook : ∃ callee, lookup w Family.comparison.member = some callee ∧
    ∀ (other : Value) (x y : α) (t : Trace), held w = some x → held other = some y → ∃ u,
      runCallee invoke callee [other] t = (.ok (some (.int (threeWay x y))), u)

def comparisons : List (String × (Int → Bool)) :=
  [("==", fun n => n = 0), ("!=", fun n => n ≠ 0), ("<", fun n => n < 0), ("<=", fun n => n ≤ 0),
   (">", fun n => n > 0), (">=", fun n => n ≥ 0)]

def sense (o : BinaryOp) (n : Int) : Bool :=
  match o with
  | .eq => n = 0
  | .ne => n ≠ 0
  | .lt => n < 0
  | .le => n ≤ 0
  | .gt => n > 0
  | .ge => n ≥ 0
  | _ => false

lemma comparisons_eq : comparisons =
    [BinaryOp.eq, .ne, .lt, .le, .gt, .ge].map fun o => (o.token, sense o) := rfl

lemma compareResult_int {o : BinaryOp} (h : o.family? = some .comparison) (n : Int) :
    Action.compareResult o (.int n) = .ok (sense o n) := by
  have hcompare : (Value.int n).number?.bind (fun m => m.compare? (.int 0)) =
      some (compare n 0) := rfl
  have hsome : (Value.int n).number?.isSome = true := rfl
  unfold Action.compareResult
  rcases Int.lt_trichotomy n 0 with hn | hn | hn
  · have hlt : compare n 0 = .lt := Int.compare_eq_lt.2 hn
    cases o <;> cases h <;> simp [hcompare, hsome, hlt, sense, bne] <;> omega
  · have heq : compare n 0 = .eq := Int.compare_eq_eq.2 hn
    cases o <;> cases h <;> simp [hcompare, hsome, heq, sense, bne] <;> omega
  · have hgt : compare n 0 = .gt := Int.compare_eq_gt.2 hn
    cases o <;> cases h <;> simp [hcompare, hsome, hgt, sense, bne] <;> omega

lemma sense_converse {o c : BinaryOp} (h : o.converse? = some c) {n m : Int}
    (hsign : n.sign = -m.sign) : sense c m = sense o n := by
  have hpos : 0 < n ↔ m < 0 := by
    rw [← Int.sign_eq_one_iff_pos, hsign, ← Int.sign_eq_neg_one_iff_neg]
    omega
  have hneg : n < 0 ↔ 0 < m := by
    rw [← Int.sign_eq_one_iff_pos, ← Int.sign_eq_neg_one_iff_neg, hsign]
    omega
  cases o <;> cases h <;> simp [sense] <;> omega

def answerOf (n : Int) (token : String) : Bool :=
  ((comparisons.lookup token).map fun test => test n).getD false

lemma answerOf_of_mem {p : String × (Int → Bool)} (hp : p ∈ comparisons) (n : Int) :
    answerOf n p.1 = p.2 n := by
  simp only [comparisons, List.mem_cons, List.not_mem_nil, or_false] at hp
  rcases hp with rfl | rfl | rfl | rfl | rfl | rfl <;> rfl

/-- Exactly one of less, equal and greater is answered with yes, and the other three comparisons are
the negations of these. -/
def Consistent (answer : String → Bool) : Prop :=
  [answer "<", answer "==", answer ">"].count true = 1 ∧ answer "<=" = !answer ">" ∧
    answer ">=" = !answer "<" ∧ answer "!=" = !answer "=="

lemma consistent_answerOf (n : Int) : Consistent (answerOf n) := by
  have hone : [decide (n < 0), decide (n = 0), decide (n > 0)].count true = 1 := by
    rcases Int.lt_trichotomy n 0 with hn | hn | hn
    · simp [hn, Int.ne_of_lt hn, Int.not_lt_of_ge (Int.le_of_lt hn)]
    · simp [hn]
    · simp [hn, Int.ne_of_gt hn, Int.not_lt_of_ge (Int.le_of_lt hn)]
  have hle : decide (n ≤ 0) = !decide (n > 0) := by
    rw [← decide_not, decide_eq_decide]
    omega
  have hge : decide (n ≥ 0) = !decide (n < 0) := by
    rw [← decide_not, decide_eq_decide]
    omega
  exact ⟨hone, hle, hge, decide_not⟩

def heldInt (field : String) (v : Value) : Option Int :=
  match fieldOrSelf field v with
  | .num (.int n) => some n
  | _ => none

lemma heldInt_eq_some {field : String} {v : Value} {n : Int} :
    heldInt field v = some n ↔ fieldOrSelf field v = .int n := by
  unfold heldInt
  split
  · rename_i h
    rw [h, Option.some.injEq, Value.int, Value.num.injEq, Num.int.injEq]
  · rename_i h
    simp only [reduceCtorEq, false_iff]
    exact h n

lemma reply_diff (self other : Value) (field : String) (t : Trace) :
    reply invoke self [other] (.diff field) t =
      ((Action.sub ((self.field? field).getD .null) (fieldOrSelf field other)).map some, t) :=
  some_lift _ t

lemma compares_holder {c : Class} {field : String} (hc : HookClass c field)
    (hactions : ∀ f ≠ Family.comparison, c.slot? f.member = none)
    (hcomparator : ∃ ref label member, c.slot? Family.comparison.member =
      some (.value (.function ref label true (.member true member (.diff field))))) (n : Int) :
    Compares bounded (heldInt field) (fun x y => x - y) (holder c field (.int n)) where
  noSingle := hc.noSingle_holder _
  noAction f hf := lookup_holder_of_none hc.noEntries (hc.apart f) (hactions f hf)
  hook := by
    obtain ⟨ref, label, member, hs⟩ := hcomparator
    refine ⟨_, lookup_holder_of_method hc.noEntries (hc.apart _) hs, fun other x y t hx hy => ?_⟩
    rw [heldInt_eq_some, fieldOrSelf_holder hc.noEntries] at hx
    rw [heldInt_eq_some] at hy
    refine ⟨noted (holder c field (.int n)) member [other] t, ?_⟩
    rw [runCallee_method, reply_diff, field?_holder hc.noEntries, hx, hy]
    rfl

def scaleClass : Class := .user 0 "Scale" [] [method "op_cmp" (.diff "v")] false

lemma hookClass_scaleClass : HookClass scaleClass "v" where
  noEntries := by decide
  noSingle := by decide
  apart f := by cases f <;> decide

lemma compares_scale (n : Int) : Compares bounded (heldInt "v") (fun x y => x - y)
    (holder scaleClass "v" (.int n)) := by
  refine compares_holder hookClass_scaleClass (fun f hf => ?_) ⟨_, _, _, rfl⟩ n
  cases f with
  | comparison => exact absurd rfl hf
  | _ => rfl

section Comparators

variable {α : Type} {held : Value → Option α} {threeWay : α → α → Int}

lemma resolve_compares {w other : Value} (hw : Compares invoke held threeWay w) {x y : α}
    (hx : held w = some x) (hy : held other = some y) {m : Member}
    (hm : m.family? = some .comparison) (last : Except Fault Value) (rest : List Ask) (t : Trace) :
    (resolve invoke last (askFamily w m other ++ rest) t).1 =
      .ok (.bool (sense m.op (threeWay x y))) := by
  obtain ⟨callee, hcallee, hanswer⟩ := hw.hook
  obtain ⟨u, hrun⟩ := hanswer other x y t hx hy
  rw [askFamily_comparison hm hcallee, List.singleton_append, resolve_of_decides (.value hrun)]
  exact congrArg (Except.map Value.bool) (compareResult_int hm _)

lemma binary_of_comparator (hsign : ∀ x y, (threeWay x y).sign = -(threeWay y x).sign)
    {left right : Value} {x y : α} (hx : held left = some x) (hy : held right = some y)
    (h : Compares invoke held threeWay left ∧ NoSingle right ∨
      Memberless left ∧ Compares invoke held threeWay right)
    {o : BinaryOp} (ho : o.family? = some .comparison) (t : Trace) :
    (binary invoke left o.token right t).1 = .ok (.bool (sense o (threeWay x y))) := by
  have hdirect : o.direct.family? = some .comparison := ho
  have hswapped : o.swapped.family? = some .comparison := (BinaryOp.family?_swapped o).trans ho
  rcases h with ⟨hl, hr⟩ | ⟨hl, hr⟩
  · rw [binary_eq_resolve_hooks o hl.noSingle hr, resolve_compares hl hx hy hdirect]
    rfl
  · have hconverse : o.converse? = some o.swapped.op := by
      cases o <;> cases ho <;> rfl
    rw [binary_eq_resolve_hooks o hl.1 hr.noSingle, askFamily_of_memberless hl, List.nil_append,
      ← List.append_nil (askFamily right _ _), resolve_compares hr hy hx hswapped,
      sense_converse hconverse (hsign x y)]

/-- One three-way comparator answers all comparisons of a pair, whichever operand has it, and the
answers fit together. -/
theorem comparator_answers (hsign : ∀ x y, (threeWay x y).sign = -(threeWay y x).sign)
    {left right : Value} {x y : α} (hx : held left = some x) (hy : held right = some y)
    (h : Compares invoke held threeWay left ∧ Memberless right ∨
      Memberless left ∧ Compares invoke held threeWay right ∨
      Compares invoke held threeWay left ∧ Compares invoke held threeWay right) :
    (∀ p ∈ comparisons, ∀ t,
      (binary invoke left p.1 right t).1 = .ok (.bool (p.2 (threeWay x y)))) ∧
    ∃ answer : String → Bool,
      (∀ p ∈ comparisons, ∀ t, (binary invoke left p.1 right t).1 = .ok (.bool (answer p.1))) ∧
      Consistent answer := by
  have hside : Compares invoke held threeWay left ∧ NoSingle right ∨
      Memberless left ∧ Compares invoke held threeWay right := by
    rcases h with ⟨hl, hr⟩ | ⟨hl, hr⟩ | ⟨hl, hr⟩
    · exact .inl ⟨hl, hr.1⟩
    · exact .inr ⟨hl, hr⟩
    · exact .inl ⟨hl, hr.noSingle⟩
  have hall : ∀ p ∈ comparisons, ∀ t,
      (binary invoke left p.1 right t).1 = .ok (.bool (p.2 (threeWay x y))) := by
    intro p hp t
    rw [comparisons_eq] at hp
    obtain ⟨o, ho, rfl⟩ := List.mem_map.1 hp
    have hfamily : ∀ o ∈ [BinaryOp.eq, .ne, .lt, .le, .gt, .ge],
        o.family? = some .comparison := by decide
    exact binary_of_comparator hsign hx hy hside (hfamily o ho) t
  refine ⟨hall, answerOf (threeWay x y), fun p hp t => ?_, consistent_answerOf _⟩
  rw [answerOf_of_mem hp]
  exact hall p hp t

end Comparators

theorem comparator_answers_scale :
    (binary Invocation.bounded (.int 3) "<" (holder scaleClass "v" (.int 5)) ⟨[], 0⟩).1 =
      .ok (.bool true) ∧
    (binary Invocation.bounded (.int 3) ">=" (holder scaleClass "v" (.int 5)) ⟨[], 0⟩).1 =
      .ok (.bool false) := by
  have hsign (x y : Int) : (x - y).sign = -(y - x).sign := by
    rw [← Int.sign_neg, Int.neg_sub]
  have hleft : heldInt "v" (.int 3) = some 3 := rfl
  have hright : heldInt "v" (holder scaleClass "v" (.int 5)) = some 5 := rfl
  obtain ⟨h, -⟩ := comparator_answers hsign hleft hright
    (.inr (.inl ⟨memberless_of_isPrimitive rfl, compares_scale 5⟩))
  exact ⟨h ("<", fun n => n < 0) (by simp [comparisons]) ⟨[], 0⟩,
    h (">=", fun n => n ≥ 0) (by simp [comparisons]) ⟨[], 0⟩⟩

end Overload.Dispatch
