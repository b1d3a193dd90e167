import Overload.Proofs.Lowering.Rules

/-! The trees that the operator rules put into the place of operators. -/

namespace Overload.Lowering

open Visit Build

variable {target name value token : Tree} {rule : Step Unit}

def dispatchCall (k : Nat) (helper : String) (left token right : Tree) : Tree :=
  (call (identifier (.str helper) k).1 [left, (literal token (k + 1)).1, right]
    (k + 2)).1

def unaryCall (k : Nat) (helper : String) (token argument : Tree) : Tree :=
  (call (identifier (.str helper) k).1 [(literal token (k + 1)).1, argument]
    (k + 2)).1

def assigned (k : Nat) (helper : String) (name token value : Tree) : Tree :=
  (assign (identifier name (k + 4)).1 (.str "=")
    (dispatchCall (k + 1) helper (identifier name k).1 token value) (k + 5)).1

def atOnce (k : Nat) (body : List Tree) (isAsync : Bool) : Tree :=
  (call (arrow [] (block body k).1 (.bool isAsync) (k + 1)).1 [] (k + 2)).1

def settled (k : Nat) (body : List Tree) (isAsync : Bool) : Tree :=
  if isAsync then (await (atOnce k body true) (k + 3)).1 else atOnce k body false

def returnLast (k : Nat) (assigned name : Tree) : List Tree :=
  [(statement assigned k).1, (ret (identifier name (k + 1)).1 (k + 2)).1]

def returnFirst (k : Nat) (assigned name : Tree) : List Tree :=
  [(tryWith (block [(ret (identifier name k).1 (k + 1)).1] (k + 2)).1 .null
    (block [(statement assigned (k + 3)).1] (k + 4)).1 (k + 5)).1]

variable (c : Context State)

lemma assignment_eq (h : target.attr "name" = .ok name) (token value : Tree) :
    assignment target token value c =
      (.ok (assigned c.next (c.state.use .binary).1 name token value),
        { c with next := c.next + 6, state := (c.state.use .binary).2 }) := by
  rw [assignment, h]
  rfl

lemma assignment_of_error {e : Fault} (h : target.attr "name" = .error e) (token value : Tree) :
    assignment target token value c = (.error e, c) := by
  rw [assignment, h]
  rfl

lemma calledAtOnce_eq (body : List Tree) (isAsync : Bool) : calledAtOnce body isAsync c =
    (.ok (settled c.next body isAsync),
      { c with next := c.next + if isAsync then 4 else 3 }) := by
  cases isAsync <;> rfl

lemma assignThenReturn_of_yield (h : target.attr "name" = .ok name)
    (hy : value.contains "YieldExpression" = .ok true) (token : Tree) :
    assignThenReturn target token value c =
      (.ok (assigned c.next (c.state.use .binary).1 name token value),
        { c with next := c.next + 6, state := (c.state.use .binary).2 }) := by
  rw [assignThenReturn, bind_def, assignment_eq c h, hy]
  rfl

lemma assignThenReturn_eq {isAsync : Bool} (h : target.attr "name" = .ok name)
    (hy : value.contains "YieldExpression" = .ok false)
    (ha : value.contains "AwaitExpression" = .ok isAsync) (token : Tree) :
    assignThenReturn target token value c =
      (.ok (settled (c.next + 9) (returnLast (c.next + 6)
          (assigned c.next (c.state.use .binary).1 name token value) name) isAsync),
        { c with next := c.next + 9 + (if isAsync then 4 else 3),
                 state := (c.state.use .binary).2 }) := by
  rw [assignThenReturn, bind_def, assignment_eq c h, hy, h, ha]
  exact calledAtOnce_eq { c with next := c.next + 9, state := (c.state.use .binary).2 } _ _

lemma returnThenAssign_eq (h : target.attr "name" = .ok name) (token : Tree) :
    returnThenAssign target token c =
      (.ok (settled (c.next + 13) (returnFirst (c.next + 7)
          (assigned (c.next + 1) (c.state.use .binary).1 name token
            (literal (.num (.int 1)) c.next).1) name) false),
        { c with next := c.next + 16, state := (c.state.use .binary).2 }) := by
  rw [returnThenAssign]
  change (assignment target token (literal (.num (.int 1)) c.next).1 >>= _)
    { c with next := c.next + 1 } = _
  rw [bind_def, assignment_eq { c with next := c.next + 1 } h, h]
  rfl

variable {c}

lemma overloading_eq (h : c.state.options.overloading = true) (rule : Step Unit) :
    overloading rule c = rule c := by
  change (if c.state.options.overloading = true then rule else pure ()) c = _
  rw [if_pos h]

lemma overloading_off (h : ¬ c.state.options.overloading = true) (rule : Step Unit) :
    overloading rule c = (.ok (), c) := by
  change (if c.state.options.overloading = true then rule else pure ()) c = _
  rw [if_neg h]
  rfl

section Forward

variable (ho : c.state.options.overloading = true)
include ho

lemma unaryRule_eq {token : String} {argument : Tree}
    (ht : c.site.node.get? "operator" = some (.str token)) (hk : token ∈ unaryTokens)
    (ha : c.site.node.get? "argument" = some argument) :
    unaryRule c = replaceBy (unaryCall c.next (c.state.use .unary).1 (.str token) argument)
      { c with next := c.next + 3, state := (c.state.use .unary).2 } := by
  have hamong : (Tree.str token).among unaryTokens = .ok true :=
    congrArg Except.ok (List.contains_iff_mem.2 hk)
  rw [unaryRule, overloading_eq ho, attr_bind ht, lift_bind hamong, if_pos rfl]
  exact attr_bind (c := { c with next := c.next + 1, state := (c.state.use .unary).2 }) ha _

lemma binaryRule_eq {token : String} {left right : Tree}
    (ht : c.site.node.get? "operator" = some (.str token)) (hk : token ∈ binaryTokens)
    (hl : c.site.node.get? "left" = some left) (hr : c.site.node.get? "right" = some right) :
    binaryRule c = replaceBy (dispatchCall c.next (c.state.use .binary).1 left (.str token) right)
      { c with next := c.next + 3, state := (c.state.use .binary).2 } := by
  have hamong : (Tree.str token).among binaryTokens = .ok true :=
    congrArg Except.ok (List.contains_iff_mem.2 hk)
  rw [binaryRule, overloading_eq ho, attr_bind ht, lift_bind hamong, if_pos rfl, attr_bind hl,
    attr_bind hr]
  rfl

lemma updateRule_eq {operator isBefore : Tree} (hop : c.site.node.get? "operator" = some operator)
    (ht : operator.index 0 = .ok token) (hk : token.among binaryTokens = .ok true)
    (ha : c.site.node.get? "argument" = some target) (hkind : target.kind = .ok (.str "Identifier"))
    (hb : c.site.node.get? "prefix" = some isBefore) :
    updateRule c =
      if isBefore.truthy then
        (assignThenReturn target token (literal (.num (.int 1)) c.next).1 >>= replaceBy)
          { c with next := c.next + 1 }
      else (returnThenAssign target token >>= replaceBy) c := by
  rw [updateRule, overloading_eq ho, attr_bind hop, lift_bind ht, lift_bind hk, if_pos rfl,
    attr_bind ha, lift_bind hkind, if_pos (by decide), attr_bind hb]
  split <;> rfl

lemma assignmentRule_plain (hop : c.site.node.get? "operator" = some (.str "=")) :
    assignmentRule c = (.ok (), c) := by
  rw [assignmentRule, overloading_eq ho, attr_bind hop]
  rfl

lemma assignmentRule_eq {operator : Tree} (hop : c.site.node.get? "operator" = some operator)
    (hne : operator.isText "=" = false) (ht : operator.initial = .ok token)
    (hk : token.among binaryTokens = .ok true) (hl : c.site.node.get? "left" = some target)
    (hkind : target.kind = .ok (.str "Identifier")) (hr : c.site.node.get? "right" = some value) :
    assignmentRule c = (assignThenReturn target token value >>= replaceBy) c := by
  rw [assignmentRule, overloading_eq ho, attr_bind hop, if_neg (by simp [hne]), lift_bind ht,
    lift_bind hk, if_pos rfl, attr_bind hl, lift_bind hkind, if_pos (by decide), attr_bind hr]

end Forward

variable {d : Context State}

lemma eq_of_pure (h : (pure () : Step Unit) c = (.ok (), d)) : d = c := (congrArg Prod.snd h).symm

def Idle (rule : Step Unit) (c : Context State) : Prop :=
  ∀ e : Context State, (∀ name, e.site.node.get? name = c.site.node.get? name) →
    e.state.options = c.state.options → rule e = (.ok (), e)

lemma Idle.overloading (ho : c.state.options.overloading = true) (h : Idle rule c) :
    Idle (overloading rule) c := by
  intro e hn hs
  rw [overloading_eq (hs ▸ ho)]
  exact h e hn hs

lemma overloading_eq_ok (h : overloading rule c = (.ok (), d)) :
    d = c ∧ Idle (overloading rule) c ∨
      c.state.options.overloading = true ∧ rule c = (.ok (), d) := by
  obtain ⟨s, e, hget, h⟩ := bind_eq_ok.1 h
  obtain ⟨hs, rfl⟩ := Prod.mk.inj hget
  obtain rfl := Except.ok.inj hs
  split at h
  · exact .inr ⟨‹_›, h⟩
  · rename_i ho
    exact .inl ⟨eq_of_pure h, fun e' _ he => overloading_off (he ▸ ho) rule⟩

def NameIn (m : Node) (key : String) (name : Tree) : Prop :=
  ∃ c : Node, m.get? key = some c.toTree ∧ c.is "Identifier" = true ∧ c.get? "name" = some name

lemma attr_toTree_eq_ok {t u : Tree} {name : String} (h : t.attr name = .ok u) :
    ∃ c : Node, t = c.toTree ∧ c.get? name = some u := by
  unfold Tree.attr at h
  cases hn : t.asNode with
  | error e => simp [hn] at h
  | ok c =>
    simp only [hn, ok_bind] at h
    exact ⟨c, asNode_eq_ok.1 hn, attr_eq_ok.1 h⟩

lemma nameIn_of_kind {m : Node} {key : String} {kind : Tree} (ht : m.get? key = some target)
    (hk : target.kind = .ok kind) (hi : kind.isText "Identifier" = true)
    (hn : target.attr "name" = .ok name) : NameIn m key name := by
  obtain ⟨c, rfl, hname⟩ := attr_toTree_eq_ok hn
  obtain rfl : c.kind = kind := Except.ok.inj hk
  exact ⟨c, ht, hi, hname⟩

inductive Operand (m : Node) (k : Nat) : List String → Tree → Tree → Nat → Prop
  | one {name : Tree} : NameIn m "argument" name →
      Operand m k ["argument"] name (literal (.num (.int 1)) k).1 (k + 1)
  | right {name value : Tree} : NameIn m "left" name → m.get? "right" = some value →
      Operand m k ["left", "right"] name value k

inductive Rewritten (m : Node) (k : Nat) (s : State) : List String → Tree → Nat → State → Prop
  | unary {token argument : Tree} : m.get? "argument" = some argument →
      token.among unaryTokens = .ok true →
      Rewritten m k s ["argument"] (unaryCall k (s.use .unary).1 token argument) (k + 3)
        (s.use .unary).2
  | binary {left token right : Tree} : m.get? "left" = some left → m.get? "right" = some right →
      token.among binaryTokens = .ok true → m.get? "operator" = some token →
      s.options.overloading = true →
      Rewritten m k s ["left", "right"] (dispatchCall k (s.use .binary).1 left token right) (k + 3)
        (s.use .binary).2
  | assign {keys : List String} {name token value : Tree} {j : Nat} :
      Operand m k keys name value j → value.contains "YieldExpression" = .ok true →
      token.among binaryTokens = .ok true →
      Rewritten m k s keys (assigned j (s.use .binary).1 name token value) (j + 6)
        (s.use .binary).2
  | assignThenReturn {keys : List String} {name token value : Tree} {j : Nat} {isAsync : Bool} :
      Operand m k keys name value j → value.contains "YieldExpression" = .ok false →
      value.contains "AwaitExpression" = .ok isAsync → token.among binaryTokens = .ok true →
      Rewritten m k s keys (settled (j + 9) (returnLast (j + 6)
          (assigned j (s.use .binary).1 name token value) name) isAsync)
        (j + 9 + if isAsync then 4 else 3) (s.use .binary).2
  | returnThenAssign {name token : Tree} : NameIn m "argument" name →
      token.among binaryTokens = .ok true →
      Rewritten m k s ["argument"] (settled (k + 13) (returnFirst (k + 7)
          (assigned (k + 1) (s.use .binary).1 name token
            (literal (.num (.int 1)) k).1) name) false)
        (k + 16) (s.use .binary).2

def operatorResults : List String := ["CallExpression", "AwaitExpression", "AssignmentExpression"]

lemma Rewritten.kind {m new : Node} {k j : Nat} {s s' : State} {keys : List String}
    (h : Rewritten m k s keys new.toTree j s') :
    ∃ kind ∈ operatorResults, new.kind = .str kind := by
  generalize ht : new.toTree = t at h
  have hkind {kind : String} {i : Nat} {fields : List (String × Tree)}
      (hn : new.toTree = .node i (.str kind) fields) : new.kind = .str kind :=
    congrArg Node.kind (Node.toTree_injective (m := ⟨i, .str kind, fields⟩) hn)
  cases h with
  | unary _ | binary _ _ | assign _ _ => exact ⟨_, by decide, hkind ht⟩
  | @assignThenReturn _ _ _ _ _ isAsync _ _ _ =>
    cases isAsync with
    | true | false => exact ⟨_, by decide, hkind ht⟩
  | returnThenAssign _ => exact ⟨_, by decide, hkind ht⟩

lemma Rewritten.exports {m : Node} {k j : Nat} {s s' : State} {keys : List String} {t : Tree}
    (h : Rewritten m k s keys t j s') : s'.exports = s.exports := by
  cases h with
  | unary _ | binary _ _ | assign _ _ | assignThenReturn _ _ _ | returnThenAssign _ =>
    exact exports_use ..

def Effect (rule : Step Unit) (keys : List String) (c d : Context State) : Prop :=
  d = c ∧ Idle rule c ∨ ∃ n k s, Rewritten c.site.node c.next c.state keys (Node.toTree n) k s ∧
    d = { c with next := k, state := s, site := d.site } ∧
    d.site.node = landed c.site.parent c.site.node n

lemma effect_of_replaceBy {keys : List String} {t : Tree} {k : Nat} {s : State}
    (hr : Rewritten c.site.node c.next c.state keys t k s)
    (h : replaceBy t { c with next := k, state := s } = (.ok (), d)) : Effect rule keys c d := by
  obtain ⟨n, rfl, hn, hd⟩ := replaceBy_eq_ok h
  exact .inr ⟨n, k, s, hr, hd, hn⟩

lemma effect_unaryRule (h : unaryRule c = (.ok (), d)) : Effect unaryRule ["argument"] c d := by
  rcases overloading_eq_ok h with h | ⟨ho, h⟩
  · exact .inl h
  obtain ⟨token, ht, h⟩ := attr_bind_eq_ok.1 h
  obtain ⟨known, hk, h⟩ := lift_bind_eq_ok.1 h
  split at h
  · rename_i hyes
    obtain ⟨argument, ha, h⟩ := attr_bind_eq_ok.1
      (show (attr "argument" >>= _) { c with next := _, state := _ } = _ from h)
    exact effect_of_replaceBy (.unary ha (hyes ▸ hk)) h
  · rename_i hno
    refine .inl ⟨eq_of_pure h, .overloading ho fun e hn _ => ?_⟩
    rw [attr_bind ((hn _).trans ht), lift_bind hk, if_neg hno]
    rfl

lemma effect_binaryRule (h : binaryRule c = (.ok (), d)) :
    Effect binaryRule ["left", "right"] c d := by
  rcases overloading_eq_ok h with h | ⟨ho, h⟩
  · exact .inl h
  obtain ⟨token, ht, h⟩ := attr_bind_eq_ok.1 h
  obtain ⟨known, hk, h⟩ := lift_bind_eq_ok.1 h
  split at h
  · rename_i hyes
    obtain ⟨left, hl, h⟩ := attr_bind_eq_ok.1 h
    obtain ⟨right, hr, h⟩ := attr_bind_eq_ok.1 h
    exact effect_of_replaceBy (.binary hl hr (hyes ▸ hk) ht ho) h
  · rename_i hno
    refine .inl ⟨eq_of_pure h, .overloading ho fun e hn _ => ?_⟩
    rw [attr_bind ((hn _).trans ht), lift_bind hk, if_neg hno]
    rfl

lemma effect_assignThenReturn {keys : List String} {j : Nat}
    (hv : ∀ name, target.attr "name" = .ok name → Operand c.site.node c.next keys name value j)
    (hk : token.among binaryTokens = .ok true)
    (h : (assignThenReturn target token value >>= replaceBy) { c with next := j } = (.ok (), d)) :
    Effect rule keys c d := by
  cases hn : target.attr "name" with
  | error e =>
    rw [assignThenReturn, bind_def, bind_def, assignment_of_error _ hn] at h
    cases congrArg Prod.fst h
  | ok name =>
    cases hy : value.contains "YieldExpression" with
    | error e =>
      rw [assignThenReturn, bind_def, bind_def, assignment_eq _ hn, hy] at h
      cases congrArg Prod.fst h
    | ok isYield =>
      cases isYield with
      | true =>
        rw [bind_def, assignThenReturn_of_yield _ hn hy] at h
        exact effect_of_replaceBy (.assign (hv name hn) hy hk) h
      | false =>
        cases ha : value.contains "AwaitExpression" with
        | error e =>
          rw [assignThenReturn, bind_def, bind_def, assignment_eq _ hn, hy, hn, ha] at h
          cases congrArg Prod.fst h
        | ok isAsync =>
          rw [bind_def, assignThenReturn_eq _ hn hy ha] at h
          exact effect_of_replaceBy (.assignThenReturn (hv name hn) hy ha hk) h

lemma effect_returnThenAssign
    (ht : ∀ name, target.attr "name" = .ok name → NameIn c.site.node "argument" name)
    (hk : token.among binaryTokens = .ok true)
    (h : (returnThenAssign target token >>= replaceBy) c = (.ok (), d)) :
    Effect rule ["argument"] c d := by
  cases hn : target.attr "name" with
  | error e =>
    rw [returnThenAssign, bind_def, build_bind, bind_def, assignment_of_error _ hn] at h
    cases congrArg Prod.fst h
  | ok name =>
    rw [bind_def, returnThenAssign_eq _ hn] at h
    exact effect_of_replaceBy (.returnThenAssign (ht name hn) hk) h

lemma effect_updateRule (h : updateRule c = (.ok (), d)) : Effect updateRule ["argument"] c d := by
  rcases overloading_eq_ok h with h | ⟨ho, h⟩
  · exact .inl h
  obtain ⟨operator, hop, h⟩ := attr_bind_eq_ok.1 h
  obtain ⟨token, htoken, h⟩ := lift_bind_eq_ok.1 h
  obtain ⟨known, hk, h⟩ := lift_bind_eq_ok.1 h
  split at h
  · rename_i hyes
    obtain ⟨target, ht, h⟩ := attr_bind_eq_ok.1 h
    obtain ⟨kind, hkind, h⟩ := lift_bind_eq_ok.1 h
    split at h
    · rename_i hi
      have hname (name : Tree) (hn : target.attr "name" = .ok name) :=
        nameIn_of_kind ht hkind hi hn
      obtain ⟨isBefore, -, h⟩ := attr_bind_eq_ok.1 h
      split at h
      · rw [build_bind] at h
        exact effect_assignThenReturn (fun name hn => .one (hname name hn)) (hyes ▸ hk) h
      · exact effect_returnThenAssign hname (hyes ▸ hk) h
    · rename_i hno
      refine .inl ⟨eq_of_pure h, .overloading ho fun e hn _ => ?_⟩
      rw [attr_bind ((hn _).trans hop), lift_bind htoken, lift_bind hk, if_pos hyes,
        attr_bind ((hn _).trans ht), lift_bind hkind, if_neg hno]
      rfl
  · rename_i hno
    refine .inl ⟨eq_of_pure h, .overloading ho fun e hn _ => ?_⟩
    rw [attr_bind ((hn _).trans hop), lift_bind htoken, lift_bind hk, if_neg hno]
    rfl

lemma effect_assignmentRule (h : assignmentRule c = (.ok (), d)) :
    Effect assignmentRule ["left", "right"] c d := by
  rcases overloading_eq_ok h with h | ⟨ho, h⟩
  · exact .inl h
  obtain ⟨operator, hop, h⟩ := attr_bind_eq_ok.1 h
  split at h
  · rename_i hplain
    refine .inl ⟨eq_of_pure h, .overloading ho fun e hn _ => ?_⟩
    rw [attr_bind ((hn _).trans hop), if_pos hplain]
    rfl
  rename_i hplain
  obtain ⟨token, htoken, h⟩ := lift_bind_eq_ok.1 h
  obtain ⟨known, hk, h⟩ := lift_bind_eq_ok.1 h
  split at h
  · rename_i hyes
    obtain ⟨target, ht, h⟩ := attr_bind_eq_ok.1 h
    obtain ⟨kind, hkind, h⟩ := lift_bind_eq_ok.1 h
    split at h
    · rename_i hi
      obtain ⟨value, hv, h⟩ := attr_bind_eq_ok.1 h
      exact effect_assignThenReturn (fun name hn => .right (nameIn_of_kind ht hkind hi hn) hv)
        (hyes ▸ hk) h
    · rename_i hno
      refine .inl ⟨eq_of_pure h, .overloading ho fun e hn _ => ?_⟩
      rw [attr_bind ((hn _).trans hop), if_neg hplain, lift_bind htoken, lift_bind hk, if_pos hyes,
        attr_bind ((hn _).trans ht), lift_bind hkind, if_neg hno]
      rfl
  · rename_i hno
    refine .inl ⟨eq_of_pure h, .overloading ho fun e hn _ => ?_⟩
    rw [attr_bind ((hn _).trans hop), if_neg hplain, lift_bind htoken, lift_bind hk, if_neg hno]
    rfl

end Overload.Lowering
