import Overload.Invocation
import Overload.Proofs.Dispatch.Resolution

/-! Operands that provide the hook of a family in place of single members. -/

namespace Overload.Dispatch

open Family Overload.Action Value Invocation

variable {v : Value} {callee : Callee} {m : Member}

variable {invoke : Invoke}

/-! ### Operands without single members -/

def NoSingle (v : Value) : Prop := ∀ m ∈ Member.all, lookup v m.name = none

def Memberless (v : Value) : Prop := NoSingle v ∧ ∀ f : Family, lookup v f.member = none

lemma direct_mem_all (o : BinaryOp) : o.direct ∈ Member.all := by
  cases o <;> decide

lemma swapped_mem_all (o : BinaryOp) : o.swapped ∈ Member.all := by
  cases o <;> decide

lemma askOf_of_none {member : String} (h : lookup v member = none) (arguments : List Value)
    (read : Value → Except Fault Value) : askOf v member arguments read = [] := by
  rw [askOf, h]
  rfl

lemma askOf_of_some {member : String} (h : lookup v member = some callee) (arguments : List Value)
    (read : Value → Except Fault Value) :
    askOf v member arguments read = [⟨callee, arguments, read⟩] := by
  rw [askOf, h]
  rfl

lemma askFamily_of_memberless (h : Memberless v) (m : Member) (other : Value) :
    askFamily v m other = [] := by
  unfold askFamily
  split
  · rfl
  · exact askOf_of_none (h.2 .comparison) _ _
  · exact askOf_of_none (h.2 _) _ _

lemma askFamily_action {f : Family} (hm : m.family? = some f) (hf : f ≠ .comparison)
    (h : lookup v f.member = some callee) (other : Value) :
    askFamily v m other = [⟨callee, [other, actionValue m], .ok⟩] := by
  rw [askFamily, hm]
  cases f with
  | comparison => exact absurd rfl hf
  | _ => exact askOf_of_some h _ _

lemma askFamily_comparison (hm : m.family? = some .comparison)
    (h : lookup v comparison.member = some callee) (other : Value) : askFamily v m other =
      [⟨callee, [other], fun r => (compareResult m.op r).map .bool⟩] := by
  rw [askFamily, hm]
  exact askOf_of_some h _ _

lemma binary_eq_resolve_hooks (o : BinaryOp) {left right : Value} (hl : NoSingle left)
    (hr : NoSingle right) (t : Trace) : binary invoke left o.token right t =
      resolve invoke (Action.binary o left right)
        (askFamily left o.direct right ++ askFamily right o.swapped left) t := by
  rw [binary_token, ← List.append_nil (candidates invoke o left right), firstOf_candidates,
    askOf_of_none (hl _ (direct_mem_all o)), askOf_of_none (hr _ (swapped_mem_all o))]
  rfl

lemma memberless_of_isPrimitive (h : v.isPrimitive = true) : Memberless v := by
  have hnone (member : String) : lookup v member = none := by
    cases v <;> simp_all [isPrimitive, lookup, entries?, attribute?]
  exact ⟨fun m _ => hnone m.name, fun f => hnone f.member⟩

/-! ### Instances -/

def fieldOrSelf (field : String) (v : Value) : Value := (v.field? field).getD v

def holder (c : Class) (field : String) (v : Value) : Value := .object 0 c [] [(field, v)]

structure HookClass (c : Class) (field : String) : Prop where
  noEntries : c.derives Class.dictionary = false
  noSingle : ∀ m ∈ Member.all, (c.slot? m.name).isNone = true ∧ m.name ≠ field
  apart : ∀ f : Family, f.member ≠ field

section Instances

variable {c : Class} {field name : String}

lemma field?_holder (hc : c.derives Class.dictionary = false) (field : String) (v : Value) :
    (holder c field v).field? field = some v := by
  simp [holder, field?, entries?, hc, attribute?, Entries.get?]

lemma fieldOrSelf_holder (hc : c.derives Class.dictionary = false) (field : String) (v : Value) :
    fieldOrSelf field (holder c field v) = v := by
  rw [fieldOrSelf, field?_holder hc]
  rfl

lemma lookup_holder_of_none (hc : c.derives Class.dictionary = false) (hn : name ≠ field)
    (hs : c.slot? name = none) : lookup (holder c field v) name = none := by
  simp [holder, lookup, entries?, hc, attribute?, Entries.get?, hn.symm, hs]

lemma lookup_holder_of_method (hc : c.derives Class.dictionary = false) (hn : name ≠ field)
    {ref : Nat} {label : Option String} {code : Code}
    (hs : c.slot? name = some (.value (.function ref label true code))) :
    lookup (holder c field v) name =
      some ⟨.function ref label true code, [holder c field v]⟩ := by
  simp [holder, lookup, entries?, hc, attribute?, Entries.get?, hn.symm, hs,
    bindTo, isCallable]

lemma HookClass.noSingle_holder (hc : HookClass c field) (v : Value) :
    NoSingle (holder c field v) := by
  intro m hm
  obtain ⟨hs, hn⟩ := hc.noSingle m hm
  exact lookup_holder_of_none hc.noEntries hn (Option.isNone_iff_eq_none.1 hs)

def noted (self : Value) (member : String) (arguments : List Value) (t : Trace) : Trace :=
  { t with calls := t.calls ++ [⟨self.label, member, arguments⟩] }

lemma runCallee_method (ref : Nat) (label : Option String) (member : String) (reply : Reply)
    (self : Value) (arguments : List Value) (t : Trace) :
    runCallee bounded
        ⟨.function ref label true (.member true member reply), [self]⟩ arguments t =
      Invocation.reply (toDepth 999) self arguments reply
        (noted self member arguments t) := by
  change (record _ >>= fun _ => _) t = _
  rw [bind_def]
  rfl

end Instances

/-! ### Hooks that apply the built-in action -/

/-- Of all members the operand only provides the hooks of the three families that get an action. -/
structure Wraps (held : Value → Value) (w : Value) : Prop where
  noSingle : NoSingle w
  noComparator : lookup w comparison.member = none
  hook : ∀ f ≠ comparison, ∃ callee, lookup w f.member = some callee ∧
    ∀ (m : Member) (other : Value) (t : Trace), m.family? = some f → ∃ u,
      runCallee bounded callee [other, actionValue m] t =
        bounded (actionValue m) [held w, held other] u

def familyActions : List (String × (Value → Value → Except Fault Value)) :=
  [("+", add), ("-", sub), ("*", mul), ("/", div), ("%", mod),
   ("**", pow), ("<<", onWords shiftLeft), (">>", onWords shiftRight),
   (">>>", onWords shiftRightUnsigned), ("^", onWords bitXor), ("&", onWords bitAnd),
   ("|", onWords bitOr), ("&&", Action.and), ("||", Action.or),
   ("??", fun a b => .ok (nullish a b))]

def actionOps : List BinaryOp :=
  [.add, .sub, .mul, .div, .mod, .pow, .lshift, .rshift, .urshift, .xor, .bitAnd, .bitOr, .and, .or,
   .nullish]

lemma familyActions_eq :
    familyActions = actionOps.map fun o => (o.token, Action.binary o) := rfl

lemma family?_of_mem_actionOps {o : BinaryOp} (ho : o ∈ actionOps) :
    ∃ f, o.family? = some f ∧ f ≠ .comparison := by
  have h : ∀ o ∈ actionOps, o.family? ≠ none ∧ o.family? ≠ some .comparison := by decide
  obtain ⟨hnone, hne⟩ := h o ho
  obtain ⟨f, hf⟩ := Option.ne_none_iff_exists'.1 hnone
  exact ⟨f, hf, fun hc => hne (hc ▸ hf)⟩

lemma some_lift (r : Except Fault Value) (t : Trace) :
    (do return some (← lift r) : Run Answer) t = (r.map some, t) := by
  rw [bind_def, lift]
  cases r <;> rfl

lemma toDepth_actionValue (depth : Nat) (m : Member) (a b : Value) (t : Trace) :
    toDepth (depth + 1) (actionValue m) [a, b] t =
      ((ofMember m a b).map some, t) :=
  some_lift _ t

lemma bounded_actionValue (m : Member) (a b : Value) (t : Trace) :
    bounded (actionValue m) [a, b] t = ((ofMember m a b).map some, t) :=
  toDepth_actionValue 999 m a b t

lemma ofMember_swapped_of_mem_actionOps {o : BinaryOp} (ho : o ∈ actionOps) (a b : Value) :
    ofMember o.swapped b a = Action.binary o a b := by
  have h : ∀ o ∈ actionOps, o.converse? = none := by decide
  simp [BinaryOp.swapped, h o ho, ofMember]

lemma resolve_wraps {held : Value → Value} {w : Value} (hw : Wraps held w) {f : Family}
    (hm : m.family? = some f) (hf : f ≠ .comparison) (other : Value) (last : Except Fault Value)
    (rest : List Ask) (t : Trace) :
    (resolve bounded last (askFamily w m other ++ rest) t).1 =
      ofMember m (held w) (held other) := by
  obtain ⟨callee, hcallee, hanswer⟩ := hw.hook f hf
  obtain ⟨u, hrun⟩ := hanswer m other t hm
  rw [bounded_actionValue] at hrun
  rw [askFamily_action hm hf hcallee, List.singleton_append]
  cases hr : ofMember m (held w) (held other) with
  | ok v => rw [resolve_of_decides (.value (hrun.trans (by rw [hr]; rfl)))]
  | error e => rw [resolve_of_decides (.error (hrun.trans (by rw [hr]; rfl)))]

lemma reply_apply (depth : Nat) (self other : Value) (m : Member) (field : String) (t : Trace) :
    reply (toDepth (depth + 1)) self [other, actionValue m] (.apply field) t =
      ((ofMember m ((self.field? field).getD .null) (fieldOrSelf field other)).map some,
        t) :=
  toDepth_actionValue depth m _ _ t

lemma wraps_holder {c : Class} {field : String} (hc : HookClass c field)
    (hcomparator : c.slot? comparison.member = none)
    (hhooks : ∀ f ≠ comparison, ∃ ref label member, c.slot? f.member =
      some (.value (.function ref label true (.member true member (.apply field))))) (v : Value) :
    Wraps (fieldOrSelf field) (holder c field v) where
  noSingle := hc.noSingle_holder v
  noComparator := lookup_holder_of_none hc.noEntries (hc.apart _) hcomparator
  hook := by
    intro f hf
    obtain ⟨ref, label, member, hs⟩ := hhooks f hf
    refine ⟨_, lookup_holder_of_method hc.noEntries (hc.apart f) hs, fun m other t _ => ?_⟩
    refine ⟨noted (holder c field v) member [other, actionValue m] t, ?_⟩
    rw [bounded_actionValue, runCallee_method, reply_apply 998, field?_holder hc.noEntries,
      fieldOrSelf_holder hc.noEntries]
    rfl

def method (name : String) (reply : Reply) : String × Slot :=
  (name, .value (.function 0 (some name) true (.member true name reply)))

def boxClass : Class :=
  .user 0 "Box" [] [method "op_arithmetic" (.apply "v"), method "op_bitwise" (.apply "v"),
    method "op_logical" (.apply "v")] false

lemma hookClass_boxClass : HookClass boxClass "v" where
  noEntries := by decide
  noSingle := by decide +kernel
  apart f := by cases f <;> decide

lemma wraps_box (v : Value) : Wraps (fieldOrSelf "v") (holder boxClass "v" v) := by
  refine wraps_holder hookClass_boxClass rfl (fun f hf => ?_) v
  cases f with
  | comparison => exact absurd rfl hf
  | arithmetic | bitwise | logical => exact ⟨_, _, _, rfl⟩

/-- A value and its wrapper take part alike: an operator with a wrapper on the left, on the right or
on both sides gives what its built-in action gives on the values themselves, or fails like it. -/
theorem hooks_keep_operands {held : Value → Value} {a b wa wb : Value} (ha : Memberless a)
    (hb : Memberless b) (hwa : Wraps held wa) (hwb : Wraps held wb)
    (hheld : held a = a ∧ held b = b ∧ held wa = a ∧ held wb = b) :
    ∀ p ∈ familyActions, ∀ t,
      (binary Invocation.bounded wa p.1 b t).1 = p.2 a b ∧
      (binary Invocation.bounded a p.1 wb t).1 = p.2 a b ∧
      (binary Invocation.bounded wa p.1 wb t).1 = p.2 a b := by
  intro p hp t
  rw [familyActions_eq] at hp
  obtain ⟨o, ho, rfl⟩ := List.mem_map.1 hp
  obtain ⟨ha', hb', hwa', hwb'⟩ := hheld
  obtain ⟨f, hfamily, hf⟩ := family?_of_mem_actionOps ho
  have hdirect : o.direct.family? = some f := hfamily
  have hswapped : o.swapped.family? = some f := (BinaryOp.family?_swapped o).trans hfamily
  refine ⟨?_, ?_, ?_⟩
  · rw [binary_eq_resolve_hooks o hwa.noSingle hb.1, resolve_wraps hwa hdirect hf, hwa', hb']
    rfl
  · rw [binary_eq_resolve_hooks o ha.1 hwb.noSingle, askFamily_of_memberless ha, List.nil_append,
      ← List.append_nil (askFamily wb _ _), resolve_wraps hwb hswapped hf, hwb', ha',
      ofMember_swapped_of_mem_actionOps ho]
  · rw [binary_eq_resolve_hooks o hwa.noSingle hwb.noSingle, resolve_wraps hwa hdirect hf, hwa',
      hwb']
    rfl

theorem hooks_keep_operands_boxed :
    (binary Invocation.bounded (holder boxClass "v" (.int 10)) "-" (.int 3) ⟨[], 0⟩).1 =
      .ok (.int 7) ∧
    (binary Invocation.bounded (.int 10) "-" (holder boxClass "v" (.int 3)) ⟨[], 0⟩).1 =
      .ok (.int 7) ∧
    (binary Invocation.bounded (holder boxClass "v" (.int 10)) "-"
      (holder boxClass "v" (.int 3)) ⟨[], 0⟩).1 = .ok (.int 7) :=
  hooks_keep_operands (memberless_of_isPrimitive rfl) (memberless_of_isPrimitive rfl)
    (wraps_box (.int 10)) (wraps_box (.int 3)) ⟨rfl, rfl, rfl, rfl⟩ ("-", sub)
    (by simp [familyActions]) ⟨[], 0⟩

end Overload.Dispatch
