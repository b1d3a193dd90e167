import Overload.Dispatch
import Overload.Proofs.Failing

/-! The resolution of a binary operator. -/

namespace Overload.Dispatch

open Value Option Overload.Action List

variable {last r : Except Fault Value}

variable {callee : Callee} {operand : Value} {t u : Trace} {member : String}

/-! ### Members -/

def IsPlain (f : Value) : Prop := ∃ ref name code, f = .function ref name true code

def HasEntry (operand : Value) (member : String) (f : Value) : Prop :=
  ∃ es, operand.entries? = some es ∧ valueAt? (.str member) es = some f ∧ f.isCallable = true

inductive GivesInstance (c : Class) (self : Value) : Slot → Callee → Prop
  | method {f : Value} : IsPlain f → GivesInstance c self (.value f) ⟨f, [self]⟩
  | value {f : Value} : ¬IsPlain f → GivesInstance c self (.value f) ⟨f, []⟩
  | classMethod {f : Value} : GivesInstance c self (.classMethod f) ⟨f, [.type c]⟩
  | static {f : Value} : GivesInstance c self (.static f) ⟨f, []⟩

inductive GivesClass (c : Class) : Slot → Callee → Prop
  | value {f : Value} : ¬IsPlain f → GivesClass c (.value f) ⟨f, []⟩
  | classMethod {f : Value} : GivesClass c (.classMethod f) ⟨f, [.type c]⟩
  | static {f : Value} : ¬IsPlain f → GivesClass c (.static f) ⟨f, []⟩

inductive HasAttribute (member : String) : Value → Callee → Prop
  | own {ref : Nat} {c : Class} {es : List (Value × Value)} {attributes : List (String × Value)}
      {f : Value} : Entries.get? member attributes = some f →
      HasAttribute member (.object ref c es attributes) ⟨f, []⟩
  | inherited {ref : Nat} {c : Class} {es : List (Value × Value)}
      {attributes : List (String × Value)} {s : Slot} {callee : Callee} :
      Entries.get? member attributes = none → c.slot? member = some s →
      GivesInstance c (.object ref c es attributes) s callee →
      HasAttribute member (.object ref c es attributes) callee
  | ofClass {c : Class} {s : Slot} {callee : Callee} : c.slot? member = some s →
      GivesClass c s callee → HasAttribute member (.type c) callee

inductive Provides (operand : Value) (member : String) : Callee → Prop
  | entry {f : Value} : HasEntry operand member f → Provides operand member ⟨f, [operand]⟩
  | attribute {callee : Callee} : (∀ f, ¬HasEntry operand member f) →
      HasAttribute member operand callee → callee.function.isCallable = true →
      Provides operand member callee

lemma bindTo_eq_iff {self f : Value} :
    self.bindTo f = callee ↔ IsPlain f ∧ callee = ⟨f, [self]⟩ ∨ ¬IsPlain f ∧ callee = ⟨f, []⟩ := by
  unfold bindTo
  split
  · rename_i ref name code
    have hp : IsPlain (.function ref name true code) := ⟨_, _, _, rfl⟩
    simp [hp, eq_comm]
  · rename_i hne
    have hp : ¬IsPlain f := fun ⟨ref, name, code, h⟩ => hne ref name code h
    simp [hp, eq_comm]

lemma givesInstance_iff {c : Class} {self : Value} {s : Slot} :
    GivesInstance c self s callee ↔ (match s with
      | .value a => self.bindTo a
      | .classMethod f => ⟨f, [.type c]⟩
      | .static f => ⟨f, []⟩) = callee := by
  cases s with
  | value f =>
    rw [bindTo_eq_iff]
    constructor
    · rintro (h | h)
      · exact .inl ⟨h, rfl⟩
      · exact .inr ⟨h, rfl⟩
    · rintro (⟨h, rfl⟩ | ⟨h, rfl⟩)
      · exact .method h
      · exact .value h
  | classMethod f => exact ⟨fun | .classMethod => rfl, fun h => h ▸ .classMethod⟩
  | static f => exact ⟨fun | .static => rfl, fun h => h ▸ .static⟩

lemma givesClass_iff {c : Class} {s : Slot} :
    GivesClass c s callee ↔ (match s with
      | .value a => ⟨a, []⟩
      | .classMethod f => ⟨f, [.type c]⟩
      | .static f => ⟨f, []⟩) = callee ∧ ¬(IsPlain callee.function ∧ callee.bound = []) := by
  cases s with
  | value f =>
    constructor
    · rintro (h | h)
      exact ⟨rfl, fun hp => h hp.1⟩
    · rintro ⟨rfl, h⟩
      exact .value fun hp => h ⟨hp, rfl⟩
  | classMethod f => exact ⟨fun | .classMethod => ⟨rfl, by simp⟩, fun h => h.1 ▸ .classMethod⟩
  | static f =>
    constructor
    · rintro (h | h | h)
      exact ⟨rfl, fun hp => h hp.1⟩
    · rintro ⟨rfl, h⟩
      exact .static fun hp => h ⟨hp, rfl⟩

lemma hasAttribute_iff :
    HasAttribute member operand callee ↔ operand.attribute? member = some callee ∧
      ∀ c, operand = .type c → ¬(IsPlain callee.function ∧ callee.bound = []) := by
  cases operand with
  | object ref c es attributes =>
    rw [attribute?]
    cases hg : Entries.get? member attributes with
    | some f =>
      constructor
      · rintro (h | ⟨h, -, -⟩)
        · rw [hg] at h
          obtain rfl := Option.some.inj h
          exact ⟨rfl, fun c hc => by cases hc⟩
        · simp [hg] at h
      · rintro ⟨h, -⟩
        obtain rfl := Option.some.inj h
        exact .own hg
    | none =>
      constructor
      · rintro (h | ⟨-, hs, h⟩)
        · simp [hg] at h
        · exact ⟨map_eq_some_iff.2 ⟨_, hs, givesInstance_iff.1 h⟩,
            fun c hc => by cases hc⟩
      · rintro ⟨h, -⟩
        obtain ⟨s, hs, h⟩ := map_eq_some_iff.1 h
        exact .inherited hg hs (givesInstance_iff.2 h)
  | type c =>
    constructor
    · rintro (_ | _ | ⟨hs, h⟩)
      obtain ⟨h, hp⟩ := givesClass_iff.1 h
      exact ⟨map_eq_some_iff.2 ⟨_, hs, h⟩, fun _ _ => hp⟩
    · rintro ⟨h, hp⟩
      obtain ⟨s, hs, h⟩ := map_eq_some_iff.1 h
      exact .ofClass hs (givesClass_iff.2 ⟨h, hp c rfl⟩)
  | _ =>
    constructor
    · intro h
      cases h
    · intro h
      simp [attribute?] at h

lemma hasEntry_iff {f : Value} :
    HasEntry operand member f ↔
      (operand.entries?.bind (valueAt? (.str member))).filter isCallable = some f := by
  rw [filter_eq_some_iff, bind_eq_some_iff]
  exact ⟨fun ⟨es, hes, hf, hc⟩ => ⟨⟨es, hes, hf⟩, hc⟩, fun ⟨⟨es, hes, hf⟩, hc⟩ => ⟨es, hes, hf, hc⟩⟩

lemma lookup_eq_some_iff :
    lookup operand member = some callee ↔ Provides operand member callee := by
  unfold lookup
  cases he : (operand.entries?.bind (valueAt? (.str member))).filter isCallable with
  | some f =>
    have hf := hasEntry_iff.2 he
    constructor
    · intro h
      obtain rfl := Option.some.inj h
      exact .entry hf
    · rintro (h | ⟨h, -, -⟩)
      · rw [hasEntry_iff, he] at h
        obtain rfl := Option.some.inj h
        rfl
      · exact absurd hf (h f)
  | none =>
    have hnone : ∀ f, ¬HasEntry operand member f := by
      intro f hf
      rw [hasEntry_iff, he] at hf
      cases hf
    have hprovides : Provides operand member callee ↔
        HasAttribute member operand callee ∧ callee.function.isCallable = true :=
      ⟨fun
        | .entry h => absurd h (hnone _)
        | .attribute _ h hc => ⟨h, hc⟩, fun ⟨h, hc⟩ => .attribute hnone h hc⟩
    rw [hprovides, hasAttribute_iff]
    clear hprovides hnone he
    cases ha : operand.attribute? member with
    | none => simp
    | some found =>
      simp only [Option.some.injEq]
      split
      · rename_i hc
        simp only [reduceCtorEq, false_iff, not_and, Bool.not_eq_true]
        rintro ⟨rfl, -⟩
        simpa using hc
      · rename_i hc
        split
        · simp only [reduceCtorEq, false_iff]
          rintro ⟨⟨rfl, hp⟩, -⟩
          exact hp _ rfl ⟨⟨_, _, _, rfl⟩, rfl⟩
        · rename_i hne
          constructor
          · intro h
            obtain rfl := Option.some.inj h
            refine ⟨⟨rfl, ?_⟩, by simpa using hc⟩
            rintro c rfl ⟨⟨ref, name, code, hf⟩, hb⟩
            obtain ⟨function, bound⟩ := found
            obtain rfl : function = _ := hf
            obtain rfl : bound = _ := hb
            exact hne c ref name code rfl rfl
          · rintro ⟨⟨rfl, -⟩, -⟩
            rfl

/-! ### Asking -/

/-- A member that is asked: what is called with what, and how a value that it returns is read. -/
structure Ask where
  callee : Callee
  arguments : List Value
  read : Value → Except Fault Value

inductive Asks (operand : Value) (member : String) (arguments : List Value)
    (read : Value → Except Fault Value) : List Ask → Prop
  | present {callee : Callee} : Provides operand member callee →
      Asks operand member arguments read [⟨callee, arguments, read⟩]
  | absent : (∀ callee, ¬Provides operand member callee) → Asks operand member arguments read []

inductive AsksFamily (operand : Value) (m : Member) (other : Value) : List Ask → Prop
  | none : m.family? = none → AsksFamily operand m other []
  | comparison {asks : List Ask} : m.family? = some .comparison →
      Asks operand "op_cmp" [other] (fun v => (compareResult m.op v).map .bool) asks →
      AsksFamily operand m other asks
  | action {f : Family} {asks : List Ask} : m.family? = some f → f ≠ .comparison →
      Asks operand f.member [other, actionValue m] .ok asks → AsksFamily operand m other asks

inductive Questions (o : BinaryOp) (left right : Value) : List Ask → Prop
  | intro {a b c d : List Ask} : Asks left o.direct.name [right] .ok a →
      Asks right o.swapped.name [left] .ok b → AsksFamily left o.direct right c →
      AsksFamily right o.swapped left d → Questions o left right (a ++ b ++ c ++ d)

variable (invoke : Invoke)

inductive Declined : List Ask → Trace → Trace → Prop
  | nil {t : Trace} : Declined [] t t
  | cons {a : Ask} {rest : List Ask} {t u w : Trace} :
      runCallee invoke a.callee a.arguments t = (.ok none, u) → Declined rest u w →
      Declined (a :: rest) t w

/-- The member was called and decides: its value is read, its error is the result. -/
inductive Decides (a : Ask) (t : Trace) : Except Fault Value → Trace → Prop
  | value {v : Value} {u : Trace} :
      runCallee invoke a.callee a.arguments t = (.ok (some v), u) → Decides a t (a.read v) u
  | error {e : Fault} {u : Trace} :
      runCallee invoke a.callee a.arguments t = (.error e, u) → Decides a t (.error e) u

def resolve (last : Except Fault Value) : List Ask → Run Value
  | [], t => (last, t)
  | a :: rest, t =>
    match runCallee invoke a.callee a.arguments t with
    | (.ok none, u) => resolve last rest u
    | (.ok (some v), u) => (a.read v, u)
    | (.error e, u) => (.error e, u)

variable {invoke}

lemma resolve_of_declined {before : List Ask} (h : Declined invoke before t u) (after : List Ask) :
    resolve invoke last (before ++ after) t = resolve invoke last after u := by
  induction h with
  | nil => rfl
  | cons ha _ ih => simpa only [cons_append, resolve, ha] using ih

lemma resolve_of_decides {a : Ask} {after : List Ask} (h : Decides invoke a t r u) :
    resolve invoke last (a :: after) t = (r, u) := by
  cases h with
  | value h | error h => simp only [resolve, h]

lemma resolve_eq_iff {asks : List Ask} {t' : Trace} : resolve invoke last asks t = (r, t') ↔
      (∃ before a after u, asks = before ++ a :: after ∧ Declined invoke before t u ∧
        Decides invoke a u r t') ∨ Declined invoke asks t t' ∧ r = last := by
  constructor
  · intro h
    induction asks generalizing t with
    | nil =>
      obtain ⟨rfl, rfl⟩ := Prod.mk.inj h
      exact .inr ⟨.nil, rfl⟩
    | cons a rest ih =>
      rcases ha : runCallee invoke a.callee a.arguments t with ⟨answer, u⟩
      rw [resolve, ha] at h
      match answer with
      | .error e =>
        obtain ⟨rfl, rfl⟩ := Prod.mk.inj h
        exact .inl ⟨[], a, rest, t, rfl, .nil, .error ha⟩
      | .ok (some v) =>
        obtain ⟨rfl, rfl⟩ := Prod.mk.inj h
        exact .inl ⟨[], a, rest, t, rfl, .nil, .value ha⟩
      | .ok none =>
        rcases ih h with ⟨before, b, after, w, rfl, hb, hd⟩ | ⟨hd, hr⟩
        · exact .inl ⟨a :: before, b, after, w, rfl, .cons ha hb, hd⟩
        · exact .inr ⟨.cons ha hd, hr⟩
  · rintro (⟨before, a, after, u, rfl, hb, hd⟩ | ⟨hd, rfl⟩)
    · rw [resolve_of_declined hb, resolve_of_decides hd]
    · rw [← append_nil asks, resolve_of_declined hd]
      rfl

/-! ### The candidates -/

def askOf (operand : Value) (member : String) (arguments : List Value)
    (read : Value → Except Fault Value) : List Ask :=
  (lookup operand member).toList.map (⟨·, arguments, read⟩)

def askFamily (operand : Value) (m : Member) (other : Value) : List Ask :=
  match m.family? with
  | none => []
  | some .comparison =>
    askOf operand "op_cmp" [other] fun v => (compareResult m.op v).map .bool
  | some f => askOf operand f.member [other, actionValue m] .ok

lemma asks_iff {arguments : List Value} {read : Value → Except Fault Value} {asks : List Ask} :
    Asks operand member arguments read asks ↔ asks = askOf operand member arguments read := by
  unfold askOf
  cases h : lookup operand member with
  | none =>
    have habsent : ∀ callee, ¬Provides operand member callee := by
      intro callee hc
      rw [← lookup_eq_some_iff, h] at hc
      cases hc
    constructor
    · rintro (hc | _)
      · exact absurd hc (habsent _)
      · rfl
    · rintro rfl
      exact .absent habsent
  | some callee =>
    have hc := lookup_eq_some_iff.1 h
    constructor
    · rintro (h' | h')
      · rw [← lookup_eq_some_iff, h] at h'
        obtain rfl := Option.some.inj h'
        rfl
      · exact absurd hc (h' callee)
    · rintro rfl
      exact .present hc

lemma asksFamily_iff {m : Member} {other : Value} {asks : List Ask} :
    AsksFamily operand m other asks ↔ asks = askFamily operand m other := by
  unfold askFamily
  constructor
  · rintro (h | ⟨h, ha⟩ | ⟨h, hne, ha⟩)
    · rw [h]
    · rw [h]
      exact asks_iff.1 ha
    · rw [h, asks_iff.1 ha]
      split <;> simp_all
  · rintro rfl
    split
    · exact .none ‹_›
    · exact .comparison ‹_› (asks_iff.2 rfl)
    · rename_i f hne h
      exact .action h (fun hf => hne (hf ▸ rfl)) (asks_iff.2 rfl)

def Puts (invoke : Invoke) (candidate : Run Outcome) (asks : List Ask) : Prop :=
  ∀ (rest : List (Run Outcome)) (others : List Ask) (last : Except Fault Value),
    (∀ t, firstOf rest t = resolve invoke last others t) →
    ∀ t, firstOf (candidate :: rest) t = resolve invoke last (asks ++ others) t

lemma firstOf_cons (c : Run Outcome) (rest : List (Run Outcome)) (t : Trace) :
    firstOf (c :: rest) t = match c t with
      | (.ok (.applied v), u) => (.ok v, u)
      | (.ok (.failed e), u) => (.error e, u)
      | (.ok .declined, u) => firstOf rest u
      | (.error e, u) => (.error e, u) := by
  rw [firstOf, bind_def]
  rcases c t with ⟨_ | (_ | _ | _), u⟩ <;> rfl

lemma puts_none (invoke : Invoke) (arguments : List Value) :
    Puts invoke (attempt invoke none arguments) [] := by
  intro rest others last h t
  rw [firstOf_declined (attempt_none invoke arguments t)]
  exact h t

lemma puts_attempt (invoke : Invoke) (operand : Value) (member : String)
    (arguments : List Value) : Puts invoke (attempt invoke (lookup operand member) arguments)
      (askOf operand member arguments .ok) := by
  unfold askOf
  cases lookup operand member with
  | none => exact puts_none invoke arguments
  | some callee =>
    intro rest others last h t
    rw [firstOf_cons]
    simp only [attempt, toList_some, map_cons, map_nil, cons_append,
      nil_append, resolve]
    rcases runCallee invoke callee arguments t with ⟨answer, u⟩
    match answer with
    | .error e => rfl
    | .ok (some v) => rfl
    | .ok none => exact h u

lemma puts_comparison (invoke : Invoke) (callee : Callee) (o : BinaryOp) (other : Value) :
    Puts invoke (do
        match ← attempt invoke (some callee) [other] with
        | .applied v => return .applied (.bool (← familyHook.liftExcept (compareResult o v)))
        | o => return o)
      [⟨callee, [other], fun v => (compareResult o v).map .bool⟩] := by
  intro rest others last h t
  rw [firstOf_cons, bind_def]
  simp only [attempt, cons_append, nil_append, resolve]
  rcases runCallee invoke callee [other] t with ⟨answer, u⟩
  match answer with
  | .error e => rfl
  | .ok none => exact h u
  | .ok (some v) =>
    simp only [bind_def, familyHook.liftExcept]
    cases compareResult o v <;> rfl

lemma puts_familyHook (invoke : Invoke) (operand : Value) (m : Member) (other : Value) :
    Puts invoke (familyHook invoke operand m other) (askFamily operand m other) := by
  unfold familyHook askFamily
  cases m.family? with
  | none => exact puts_none invoke []
  | some f =>
    cases f with
    | comparison =>
      simp only [askOf, Family.member]
      cases lookup operand "op_cmp" with
      | none => exact puts_none invoke []
      | some callee => exact puts_comparison invoke callee m.op other
    | _ => exact puts_attempt invoke operand _ _

lemma firstOf_candidates (invoke : Invoke) (o : BinaryOp) (left right : Value)
    (more : List (Run Outcome)) (t : Trace) :
    firstOf (candidates invoke o left right ++ more) t =
      resolve invoke (Action.binary o left right)
        (askOf left o.direct.name [right] .ok ++ askOf right o.swapped.name [left] .ok ++
          askFamily left o.direct right ++ askFamily right o.swapped left) t := by
  simp only [candidates, append_assoc, cons_append, nil_append]
  apply puts_attempt
  apply puts_attempt
  apply puts_familyHook
  intro t
  rw [← append_nil (askFamily right o.swapped left)]
  apply puts_familyHook
  intro t
  rw [firstOf_cons]
  simp only [resolve]
  cases Action.binary o left right <;> rfl

lemma binary_token (invoke : Invoke) (o : BinaryOp) (left right : Value) :
    binary invoke left o.token right = firstOf (candidates invoke o left right) := by
  rw [binary, chain, BinaryOp.ofToken?_token]

lemma Declined.congr {invoke' : Invoke} {asks : List Ask} {t u : Trace}
    (h : Declined invoke asks t u) (hi : ∀ a ∈ asks, ∀ t,
      runCallee invoke' a.callee a.arguments t = runCallee invoke a.callee a.arguments t) :
    Declined invoke' asks t u := by
  induction h with
  | nil => exact .nil
  | cons ha _ ih =>
    exact .cons ((hi _ (by simp) _).trans ha) (ih fun b hb => hi b (by simp [hb]))

lemma Decides.congr {invoke' : Invoke} {a : Ask} (h : Decides invoke a t r u)
    (hi : ∀ t, runCallee invoke' a.callee a.arguments t = runCallee invoke a.callee a.arguments t) :
    Decides invoke' a t r u := by
  cases h with
  | value h => exact .value ((hi t).trans h)
  | error h => exact .error ((hi t).trans h)

/-- A binary operator asks the members that its operands provide in order: the first that does not
decline decides, whatever the later ones would do, and the built-in action runs if all decline.
Nothing comes after the action. -/
theorem binary_resolution (o : BinaryOp) (left right : Value) :
    ∃ asks, (∀ as, Questions o left right as ↔ as = asks) ∧ ∀ (invoke : Invoke) (t : Trace),
      (∀ r t', binary invoke left o.token right t = (r, t') ↔
        (∃ before a after u, asks = before ++ a :: after ∧ Declined invoke before t u ∧
          Decides invoke a u r t') ∨
        Declined invoke asks t t' ∧ r = Action.binary o left right) ∧
      (∀ (invoke' : Invoke) before a after u r t', asks = before ++ a :: after →
        Declined invoke before t u → Decides invoke a u r t' →
        (∀ b ∈ before ++ [a], ∀ w,
          runCallee invoke' b.callee b.arguments w = runCallee invoke b.callee b.arguments w) →
        binary invoke' left o.token right t = (r, t')) ∧
      ∀ more, firstOf (candidates invoke o left right ++ more) t =
        binary invoke left o.token right t := by
  refine ⟨askOf left o.direct.name [right] .ok ++ askOf right o.swapped.name [left] .ok ++
    askFamily left o.direct right ++ askFamily right o.swapped left, fun as => ?_,
    fun invoke t => ?_⟩
  · constructor
    · rintro ⟨ha, hb, hc, hd⟩
      rw [asks_iff.1 ha, asks_iff.1 hb, asksFamily_iff.1 hc, asksFamily_iff.1 hd]
    · rintro rfl
      exact .intro (asks_iff.2 rfl) (asks_iff.2 rfl) (asksFamily_iff.2 rfl) (asksFamily_iff.2 rfl)
  · have hresolve (invoke : Invoke) := firstOf_candidates invoke o left right
    generalize askOf left o.direct.name [right] .ok ++ askOf right o.swapped.name [left] .ok ++
      askFamily left o.direct right ++ askFamily right o.swapped left = asks at hresolve
    have hbinary (invoke : Invoke) : binary invoke left o.token right t =
        resolve invoke (Action.binary o left right) asks t := by
      rw [binary_token, ← hresolve invoke [] t, append_nil]
    refine ⟨fun r t' => by rw [hbinary, resolve_eq_iff], ?_, fun more => ?_⟩
    · intro invoke' before a after u r t' has hb ha hi
      rw [hbinary, has, resolve_of_declined (hb.congr fun b hb => hi b (by simp [hb])),
        resolve_of_decides (ha.congr (hi a (by simp)))]
    · rw [hresolve, hbinary]

end Overload.Dispatch
