import Overload.Proofs.Lowering.Containment
import Overload.Proofs.Lowering.Steps

/-! Properties that pass to new nodes from their children. -/

namespace Overload.Lowering

open Visit Kind List Build Node State

variable {j : Nat} {P : Node → Prop} {key : String} {x : Tree} {new : Node} {base : State}

variable {xs ps : List Tree} {e : Export} {name : Tree}

structure Callable (t : Tree) (isAsync : Bool) : Prop where
  yields : Lacks "YieldExpression" t
  awaits : isAsync = false → Lacks "AwaitExpression" t

def plainKinds : List Kind :=
  [.literal, .callExpression, .awaitExpression, .arrowFunctionExpression, .blockStatement,
    .expressionStatement, .returnStatement, .tryStatement, .emptyStatement, .variableDeclarator,
    .property, .spreadElement, .objectExpression]

def listKinds : List (Kind × String × String) :=
  [(.objectPattern, "properties", "Property"),
    (.variableDeclaration, "declarations", "VariableDeclarator")]

inductive Made (N : Tree → Prop) : Node → Prop
  | plain (K : Kind) {i : Nat} {fields : List (String × Tree)} : K ∈ plainKinds →
      Made N ⟨i, .str K.name, fields⟩
  | list (K : Kind) (key kind : String) {i : Nat} {fields : List (String × Tree)} :
      (K, key, kind) ∈ listKinds →
      Parts (·.is kind = true) ((⟨i, .str K.name, fields⟩ : Node).get key) →
      Made N ⟨i, .str K.name, fields⟩
  | identifier {i : Nat} {name : Tree} : N name →
      Made N ⟨i, .str Kind.identifier.name, [("name", name)]⟩
  | assignment {i : Nat} {fields : List (String × Tree)} :
      (⟨i, .str assignmentExpression.name, fields⟩ : Node).get? "operator" = some (.str "=") →
      Made N ⟨i, .str assignmentExpression.name, fields⟩

def madeKinds : List Kind :=
  plainKinds ++ [Kind.objectPattern, .variableDeclaration, .identifier, .assignmentExpression]

lemma Made.kind {N : Tree → Prop} {n : Node} (h : Made N n) : ∃ K ∈ madeKinds, n.kind = .str K.name := by
  have hlist : ∀ e ∈ listKinds, e.1 ∈ madeKinds := by decide
  cases h with
  | plain K hK => exact ⟨K, mem_append_left _ hK, rfl⟩
  | list K key kind hK => exact ⟨K, hlist _ hK, rfl⟩
  | identifier => exact ⟨.identifier, by decide, rfl⟩
  | assignment => exact ⟨.assignmentExpression, by decide, rfl⟩

def callKinds : List String := ["CallExpression", "AwaitExpression"]

structure Grows (k : Nat) (N C : Tree → Prop) : Prop where
  flat : ∀ t : Tree, t.isNode = false → (∀ xs, t ≠ .list xs) → C t
  list : ∀ xs, (∀ t ∈ xs, C t) → C (.list xs)
  identifier : ∀ {i name}, N name → k ≤ i → C (Build.identifier name i).1
  made : ∀ n : Node, k ≤ n.id → n.isFunction = false → Made N n →
    (∀ kind ∈ callKinds, n.is kind = false) → (∀ f ∈ n.fields, C f.2) → C n.toTree

structure Builds (k : Nat) (N C : Tree → Prop) : Prop where
  grows : Grows k N C
  text : ∀ s, N (.str s)
  call : ∀ {i callee arguments}, C callee → (∀ t ∈ arguments, C t) → k ≤ i →
    C (call callee arguments i).1
  await : ∀ {i t}, C t → k ≤ i → C (await t i).1
  settled : ∀ i body isAsync, k ≤ i → C (block body i).1 →
    Callable (block body i).1 isAsync → C (settled i body isAsync)

structure Assembles (s s' : State) (k : Nat) (N C : Tree → Prop) : Prop where
  grows : Grows k N C
  unary : ∀ i token argument, k ≤ i → s'.unaryFn = some (s.use .unary).1 →
    token.among unaryTokens = .ok true → C argument →
    C (unaryCall i (s.use .unary).1 token argument)
  binary : ∀ i left token right, k ≤ i → s'.binaryFn = some (s.use .binary).1 →
    token.among binaryTokens = .ok true → C left → C right →
    C (dispatchCall i (s.use .binary).1 left token right)
  importer : ∀ i source, k ≤ i → s'.importFn = some (s.use .importer).1 →
    (s.importIsAsync = true → s'.hasAwait = true) → C source → C (calledImporter i s source)
  settled : ∀ i body isAsync, k ≤ i → C (block body i).1 →
    Callable (block body i).1 isAsync →
    (isAsync = true → ∃ x, C x ∧ x.contains "AwaitExpression" = .ok true) →
    C (settled i body isAsync)
  passed : ∀ i bound exported name, k ≤ i → name ∉ s.names.taken →
    ⟨(Build.identifier (.str name) (i + 2)).1, exported, false⟩ ∈ s'.exports → C bound →
    C (plainProperty bound (Build.identifier (.str name) i).1 (i + 1)).1

lemma isFunction_of_kind {n : Node} {kind : String} (hk : n.kind = .str kind)
    (h : kind ∉ Tree.functionKinds) : n.isFunction = false := by
  rw [isFunction, any_eq_false]
  intro other ho his
  rw [is_of_kind hk, beq_iff_eq] at his
  exact h (his ▸ ho)

namespace Grows

variable {k i : Nat} {N C : Tree → Prop} (hC : Grows k N C) {t : Tree}
include hC

lemma mono (h : k ≤ j) : Grows j N C where
  flat := hC.flat
  list := hC.list
  identifier hn hi := hC.identifier hn (Nat.le_trans h hi)
  made n hn := hC.made n (Nat.le_trans h hn)

lemma null : C .null := hC.flat _ rfl (by simp)

lemma str (s : String) : C (.str s) := hC.flat _ rfl (by simp)

lemma bool (b : Bool) : C (.bool b) := hC.flat _ rfl (by simp)

lemma num (n : Num) : C (.num n) := hC.flat _ rfl (by simp)

lemma get {n : Node} (h : ∀ t, n.get? key = some t → C t) : C (n.get key) := by
  cases ht : n.get? key with
  | none => simpa [Node.get, ht] using hC.null
  | some t => simpa [Node.get, ht] using h t ht

lemma token {tokens : List String} (h : t.among tokens = .ok true) : C t := by
  obtain ⟨name, rfl, -⟩ := among_eq_true h
  exact hC.str name

lemma node (K : Kind) {fields : List (String × Tree)} (hi : k ≤ i)
    (hf : K.name ∉ Tree.functionKinds ++ callKinds) (hm : Made N ⟨i, .str K.name, fields⟩)
    (h : ∀ f ∈ fields, C f.2) : C (.node i (.str K.name) fields) := by
  obtain ⟨hfun, hcall⟩ := not_or.1 (mem_append.not.1 hf)
  exact hC.made ⟨i, .str K.name, fields⟩ hi (isFunction_of_kind rfl hfun) hm (is_other rfl hcall) h

lemma plain (K : Kind) {fields : List (String × Tree)} (hi : k ≤ i)
    (hK : K ∈ plainKinds ∧ K.name ∉ Tree.functionKinds ++ callKinds)
    (h : ∀ f ∈ fields, C f.2) : C (.node i (.str K.name) fields) :=
  hC.node K hi hK.2 (.plain K hK.1) h

lemma literal {value : Tree} (h : C value) (hi : k ≤ i) : C (Build.literal value i).1 :=
  hC.plain .literal hi (by decide) (by simpa using h)

lemma empty (hi : k ≤ i) : C (Build.empty i).1 :=
  hC.plain .emptyStatement hi (by decide) (by simp)

lemma block {body : List Tree} (h : ∀ t ∈ body, C t) (hi : k ≤ i) : C (Build.block body i).1 :=
  hC.plain .blockStatement hi (by decide) (by simpa using hC.list _ h)

lemma statement (h : C t) (hi : k ≤ i) : C (Build.statement t i).1 :=
  hC.plain .expressionStatement hi (by decide) (by simpa using h)

lemma ret (h : C t) (hi : k ≤ i) : C (Build.ret t i).1 :=
  hC.plain .returnStatement hi (by decide) (by simpa using h)

lemma property {key value : Tree} {shorthand : Bool} (hk : C key) (hv : C value) (hi : k ≤ i) :
    C (Build.property key value (.bool shorthand) (.bool false) i).1 := by
  refine hC.plain .property hi (by decide) ?_
  simp only [forall_mem_cons]
  exact ⟨hk, hv, by simp [hC.bool, hC.str]⟩

lemma pattern (h : ∀ t ∈ ps, C t ∧ t.is "Property" = true) (hi : k ≤ i) :
    C (Build.objectPattern ps i).1 := by
  have hlist : Parts (·.is "Property" = true) (.list ps) := parts_list.2 fun c hc => (h _ hc).2
  exact hC.node .objectPattern hi (by decide)
    (.list .objectPattern "properties" "Property" (by decide) hlist)
    (by simpa using hC.list _ fun t ht => (h t ht).1)

lemma constantOf {id init : Tree} (hid : C id) (hinit : C init) (hi : k ≤ i) :
    C (constantOf i id init) := by
  have hdeclarator : C (declarator id init i).1 := by
    refine hC.plain .variableDeclarator hi (by decide) ?_
    simp only [forall_mem_cons]
    exact ⟨hid, hinit, by simp⟩
  have hlist : Parts (·.is "VariableDeclarator" = true) (.list [(declarator id init i).1]) := by
    refine parts_list.2 fun c hc => ?_
    obtain rfl : c = ⟨i, .str "VariableDeclarator", _⟩ :=
      toTree_injective (mem_singleton.1 hc)
    rfl
  refine hC.node .variableDeclaration (Nat.le_succ_of_le hi) (by decide)
    (.list .variableDeclaration "declarations" "VariableDeclarator" (by decide) hlist) ?_
  simp only [forall_mem_cons]
  exact ⟨hC.str _, hC.list _ (forall_mem_singleton.2 hdeclarator), by simp⟩

end Grows

namespace Assembles

variable {s s' : State} {k i : Nat} {N C : Tree → Prop} (hC : Assembles s s' k N C) {t : Tree}
include hC

lemma mono (h : k ≤ j) : Assembles s s' j N C where
  grows := hC.grows.mono h
  unary i _ _ hi := hC.unary i _ _ (Nat.le_trans h hi)
  binary i _ _ _ hi := hC.binary i _ _ _ (Nat.le_trans h hi)
  importer i _ hi := hC.importer i _ (Nat.le_trans h hi)
  settled i _ _ hi := hC.settled i _ _ (Nat.le_trans h hi)
  passed i _ _ _ hi := hC.passed i _ _ _ (Nat.le_trans h hi)

lemma assigned {token : Tree} (hs : s'.binaryFn = some (s.use .binary).1)
    (ht : token.among binaryTokens = .ok true) (hn : N name) (h : C t) (hi : k ≤ i) :
    C (assigned i (s.use .binary).1 name token t) := by
  refine hC.grows.node .assignmentExpression (by omega) (by decide) (.assignment rfl) ?_
  simp only [forall_mem_cons]
  exact ⟨hC.grows.str _, hC.grows.identifier hn (by omega),
    hC.binary _ _ _ _ (by omega) hs ht (hC.grows.identifier hn hi) h, by simp⟩

lemma returnLast (hn : N name) (h : C t) (hi : k ≤ i) (hj : k ≤ j) :
    C (block (returnLast i t name) j).1 := by
  refine hC.grows.block ?_ hj
  simp only [Lowering.returnLast, forall_mem_cons]
  exact ⟨hC.grows.statement h hi, hC.grows.ret (hC.grows.identifier hn (by omega)) (by omega),
    by simp⟩

lemma returnFirst (hn : N name) (h : C t) (hi : k ≤ i) (hj : k ≤ j) :
    C (block (returnFirst i t name) j).1 := by
  refine hC.grows.block ?_ hj
  simp only [Lowering.returnFirst, forall_mem_cons]
  refine ⟨hC.grows.plain .tryStatement (by omega) (by decide) ?_, by simp⟩
  simp only [forall_mem_cons]
  refine ⟨hC.grows.block ?_ (by omega), hC.grows.null, hC.grows.block ?_ (by omega), by simp⟩
  · simpa using hC.grows.ret (hC.grows.identifier hn hi) (by omega)
  · simpa using hC.grows.statement h (by omega)

end Assembles

lemma assembles_of_calls {s s' : State} {k : Nat} {N C : Tree → Prop} (hC : Grows k N C)
    (hN : ∀ name, N (.str name)) (hcall : ∀ {i callee arguments}, C callee → (∀ t ∈ arguments, C t) →
      k ≤ i → C (call callee arguments i).1)
    (hawait : ∀ {i t}, C t → s'.hasAwait = true → k ≤ i → C (await t i).1)
    (hsettled : ∀ i body isAsync, k ≤ i → C (block body i).1 →
      Callable (block body i).1 isAsync →
      (isAsync = true → ∃ x, C x ∧ x.contains "AwaitExpression" = .ok true) →
      C (settled i body isAsync)) : Assembles s s' k N C where
  grows := hC
  unary i _ _ hi _ ht ha := by
    refine hcall (hC.identifier (hN _) hi) ?_ (by omega)
    simp only [forall_mem_cons]
    exact ⟨hC.literal (hC.token ht) (by omega), ha, by simp⟩
  binary i _ _ _ hi _ ht hl hr := by
    refine hcall (hC.identifier (hN _) hi) ?_ (by omega)
    simp only [forall_mem_cons]
    exact ⟨hl, hC.literal (hC.token ht) (by omega), hr, by simp⟩
  importer i _ hi _ ha h := by
    have hcalled := hcall (hC.identifier (hN (s.use .importer).1) hi)
      (forall_mem_singleton.2 h) (Nat.le_succ_of_le hi)
    unfold Lowering.calledImporter
    split
    · exact hawait hcalled (ha ‹_›) (by omega)
    · exact hcalled
  settled := hsettled
  passed _ _ _ _ hi _ _ hb := hC.property hb (hC.identifier (hN _) hi) (by omega)

section Builds

variable {k : Nat} {N C : Tree → Prop}

lemma Builds.mono (hC : Builds k N C) (h : k ≤ j) : Builds j N C where
  grows := hC.grows.mono h
  text := hC.text
  call hc ha hi := hC.call hc ha (Nat.le_trans h hi)
  await ht hi := hC.await ht (Nat.le_trans h hi)
  settled i body isAsync hi := hC.settled i body isAsync (Nat.le_trans h hi)

lemma Builds.assembles (hC : Builds k N C) (s s' : State) : Assembles s s' k N C :=
  assembles_of_calls hC.grows hC.text hC.call (fun ht _ => hC.await ht)
    fun i body isAsync hi hb hc _ => hC.settled i body isAsync hi hb hc

end Builds

section Called

def arrowOf (k : Nat) (body : List Tree) (isAsync : Bool) : Node :=
  ⟨k + 1, .str "ArrowFunctionExpression", [("id", .null), ("params", .list []),
    ("body", (block body k).1), ("expression", .bool false), ("generator", .bool false),
    ("async", .bool isAsync)]⟩

def callOf (k : Nat) (body : List Tree) (isAsync : Bool) : Node :=
  ⟨k + 2, .str "CallExpression", [("callee", (arrowOf k body isAsync).toTree),
    ("arguments", .list []), ("optional", .bool false)]⟩

def pauseOf (k : Nat) (body : List Tree) : Node :=
  ⟨k + 3, .str "AwaitExpression", [("argument", (callOf k body true).toTree)]⟩

lemma settled_eq (k : Nat) (body : List Tree) (isAsync : Bool) : settled k body isAsync =
    if isAsync then (pauseOf k body).toTree else (callOf k body false).toTree := rfl

variable {k : Nat} {body : List Tree} {isAsync : Bool}

lemma child_of_arrow (h : Parts P (block body k).1) {s : Visit.Slot}
    (hs : s ∈ slots (arrowOf k body isAsync)) : P s.child := by
  refine slot_of_parts ?_ hs
  simp only [arrowOf, forall_mem_cons]
  exact ⟨parts_null, by simp, h, by simp⟩

lemma child_of_call (h : P (arrowOf k body isAsync)) {s : Visit.Slot}
    (hs : s ∈ slots (callOf k body isAsync)) : P s.child := by
  refine slot_of_parts ?_ hs
  simp only [callOf, forall_mem_cons]
  exact ⟨parts_toTree.2 h, by simp⟩

lemma child_of_pause (h : P (callOf k body true)) {s : Visit.Slot}
    (hs : s ∈ slots (pauseOf k body)) : P s.child := by
  refine slot_of_parts ?_ hs
  simpa [pauseOf] using h

variable {N : Tree → Prop} {Q : Node → Prop}

lemma grows_of_slots (h : ∀ n : Node, k ≤ n.id → n.isFunction = false → Made N n →
    (∀ kind ∈ callKinds, n.is kind = false) → (∀ s ∈ slots n, Q s.child) → Q n) :
    Grows k N (Parts Q) where
  flat _ := parts_of_flat
  list _ := parts_items
  identifier hn hi := by
    refine parts_node.2 (h _ hi (isFunction_of_kind rfl (by decide)) (.identifier hn)
      (is_other rfl (by decide)) fun s hs => ?_)
    rw [slots_of_childKeys (childKeys_of_kind .identifier rfl)] at hs
    simp [children, slotsOf] at hs
  made n hn hf hm hc hfields := parts_toTree.2 (h n hn hf hm hc fun _ => slot_of_parts hfields)

lemma builds_of_slots (hN : ∀ s, N (.str s))
    (h : ∀ n : Node, k ≤ n.id → n.isFunction = false → Made N n → (∀ s ∈ slots n, Q s.child) → Q n)
    (hsettled : ∀ i body isAsync, k ≤ i → Parts Q (block body i).1 →
      Callable (block body i).1 isAsync → Parts Q (settled i body isAsync)) :
    Builds k N (Parts Q) where
  grows := grows_of_slots fun n hn hf hm _ => h n hn hf hm
  text := hN
  call hc ha hi := by
    refine parts_node.2 (h _ hi (isFunction_of_kind rfl (by decide))
      (.plain .callExpression (by decide)) fun _ => slot_of_parts ?_)
    simp only [forall_mem_cons]
    exact ⟨hc, parts_items ha, by simp⟩
  await ht hi := parts_node.2 (h _ hi (isFunction_of_kind rfl (by decide))
    (.plain .awaitExpression (by decide)) fun _ => slot_of_parts (by simpa using ht))
  settled := hsettled

lemma builds_of_children (hN : ∀ s, N (.str s))
    (h : ∀ n : Node, k ≤ n.id → Made N n → (∀ s ∈ slots n, Q s.child) → Q n) :
    Builds k N (Parts Q) := by
  refine builds_of_slots hN (fun n hn _ => h n hn) fun i body isAsync hi hb _ => ?_
  have harrow : Q (arrowOf i body isAsync) :=
    h _ (Nat.le_succ_of_le hi) (.plain .arrowFunctionExpression (by decide))
      fun _ => child_of_arrow hb
  have hcall : Q (callOf i body isAsync) :=
    h _ (show k ≤ i + 2 by omega) (.plain .callExpression (by decide))
      fun _ => child_of_call harrow
  rw [settled_eq]
  cases isAsync with
  | false => exact parts_toTree.2 hcall
  | true =>
    exact parts_toTree.2 (h _ (show k ≤ i + 3 by omega) (.plain .awaitExpression (by decide))
      fun _ => child_of_pause hcall)

end Called

section Operators

variable {m : Node} {keys : List String} {k : Nat} {s s' : State} {t : Tree} {N C : Tree → Prop}

lemma parts_get? (h : C (m.get key)) (hx : m.get? key = some x) : C x := by
  rwa [Node.get, hx] at h

lemma ne_type_of_operand {kind : String} (h : (kind, keys) ∈ operands) (hkey : key ∈ keys) :
    key ≠ "type" := by
  have hall : ∀ e ∈ operands, ∀ key ∈ e.2, key ≠ "type" := by decide
  exact hall _ h key hkey

lemma Operand.le {value : Tree} (h : Operand m k keys name value j) : k ≤ j := by
  cases h <;> omega

lemma Operand.parts {value : Tree} (h : Operand m k keys name value j) (hC : Grows k N C)
    (hm : ∀ key ∈ keys, C (m.get key))
    (hn : ∀ key ∈ keys, ∀ name, NameIn m key name → N name) : N name ∧ C value := by
  cases h with
  | one hname => exact ⟨hn _ (by simp) _ hname, hC.literal (hC.num _) (Nat.le_refl k)⟩
  | right hname hv => exact ⟨hn _ (by simp) _ hname, parts_get? (hm _ (by simp)) hv⟩

theorem Rewritten.assembled (h : Rewritten m k s keys t j s') (hC : Assembles s s' k N C)
    (hm : ∀ key ∈ keys, C (m.get key))
    (hn : ∀ key ∈ keys, ∀ name, NameIn m key name → N name) : C t := by
  cases h with
  | unary ha ht =>
    exact hC.unary _ _ _ (Nat.le_refl k) (unaryFn_useUnary s) ht
      (parts_get? (hm _ (by simp)) ha)
  | binary hl hr ht =>
    exact hC.binary _ _ _ _ (Nat.le_refl k) (binaryFn_useBinary s) ht
      (parts_get? (hm _ (by simp)) hl) (parts_get? (hm _ (by simp)) hr)
  | assign hv _ ht =>
    obtain ⟨hname, hvalue⟩ := hv.parts hC.grows hm hn
    exact hC.assigned (binaryFn_useBinary s) ht hname hvalue hv.le
  | assignThenReturn hv hy ha ht =>
    obtain ⟨hname, hvalue⟩ := hv.parts hC.grows hm hn
    have hle := hv.le
    have hassigned := hC.assigned (binaryFn_useBinary s) ht hname hvalue hle
    refine hC.settled _ _ _ (by omega) (hC.returnLast hname hassigned (by omega) (by omega))
      ⟨?_, ?_⟩ ?_
    · exact lacks_returnLast (by decide) (lacks_assigned (by decide) hy ..) ..
    · rintro rfl
      exact lacks_returnLast (by decide) (lacks_assigned (by decide) ha ..) ..
    · rintro rfl
      exact ⟨_, hvalue, ha⟩
  | returnThenAssign hname ht =>
    have hname := hn _ (by simp) _ hname
    have hone (kind : String) (hkind : kind ∈ pauses) :=
      lacks_assigned hkind (lacks_literal hkind (.num (.int 1)) k) (k + 1) (s.use .binary).1
    have hassigned := hC.assigned (i := k + 1) (binaryFn_useBinary s) ht hname
      (hC.grows.literal (hC.grows.num (.int 1)) (Nat.le_refl k)) (by omega)
    refine hC.settled _ _ _ (by omega) (hC.returnFirst hname hassigned (by omega) (by omega))
      ⟨?_, fun _ => ?_⟩ (by simp)
    · exact lacks_returnFirst (by decide) (hone _ (by decide) _ _) ..
    · exact lacks_returnFirst (by decide) (hone _ (by decide) _ _) ..

theorem Rewritten.parts (h : Rewritten m k s keys t j s') (hC : Builds k N C)
    (hm : ∀ key ∈ keys, C (m.get key))
    (hn : ∀ key ∈ keys, ∀ name, NameIn m key name → N name) : C t :=
  h.assembled (hC.assembles s s') hm hn

lemma Rewritten.isFunction (h : Rewritten m k s keys new.toTree j s') : new.isFunction = false := by
  obtain ⟨kind, hmem, hk⟩ := h.kind
  have hall : ∀ kind ∈ operatorResults, kind ∉ Tree.functionKinds := by decide
  exact isFunction_of_kind hk (hall kind hmem)

def donated : List String := ["local", "imported", "exported"]

lemma Rewritten.fresh (h : Rewritten m k s keys new.toTree j s') :
    k ≤ new.id ∧ new.id < j ∧ ∀ key ∈ donated, new.get? key = none := by
  generalize ht : new.toTree = t at h
  cases h with
  | unary ha | binary hl hr =>
    obtain rfl : new = ⟨k + 2, _, _⟩ := toTree_injective ht
    exact ⟨by simp, by simp, by simp [donated, Node.get?, Entries.get?]⟩
  | @assign _ _ _ _ j hv hy =>
    obtain rfl : new = ⟨j + 5, _, _⟩ := toTree_injective ht
    have := hv.le
    exact ⟨by simp; omega, by simp, by simp [donated, Node.get?, Entries.get?]⟩
  | @assignThenReturn _ _ _ _ j isAsync hv hy ha =>
    have := hv.le
    cases isAsync with
    | true =>
      obtain rfl : new = pauseOf (j + 9) _ := toTree_injective ht
      exact ⟨by simp [pauseOf]; omega, by simp [pauseOf],
        by simp [pauseOf, donated, Node.get?, Entries.get?]⟩
    | false =>
      obtain rfl : new = callOf (j + 9) _ false := toTree_injective ht
      exact ⟨by simp [callOf]; omega, by simp [callOf],
        by simp [callOf, donated, Node.get?, Entries.get?]⟩
  | returnThenAssign =>
    obtain rfl : new = callOf (k + 13) _ false := toTree_injective ht
    exact ⟨by simp [callOf]; omega, by simp [callOf],
      by simp [callOf, donated, Node.get?, Entries.get?]⟩

end Operators

section Declarations

variable {m : Node} {k : Nat} {s s' : State} {t : Tree} {N C : Tree → Prop}

lemma le_importerEnd : k ≤ importerEnd k s := by
  unfold importerEnd
  split <;> omega

lemma Destructures.le (h : Destructures xs k ps j) : k ≤ j := by
  induction h with
  | nil => exact Nat.le_refl _
  | default _ _ _ ih => omega
  | named _ _ _ _ ih => omega

lemma PassesOn.le (h : PassesOn xs k s ps j s') : k ≤ j := by
  induction h with
  | nil => exact Nat.le_refl _
  | cons _ _ _ ih => omega

def Donates (keys : List String) (C : Tree → Prop) (x : Tree) : Prop :=
  ∀ key ∈ keys, ∀ u, x.attr key = .ok u → C u

lemma hasAwait_useImport (h : s.importIsAsync = true) : (s.use .importer).2.hasAwait = true := by
  simp only [use, useImport]
  split <;> simp [h]

def Specifiers (m : Node) (xs : List Tree) : Prop := (m.get "specifiers").elements = .ok xs

lemma specifiers_of_get? {specifiers : Tree} (hs : m.get? "specifiers" = some specifiers)
    (hx : specifiers.elements = .ok xs) : Specifiers m xs := by
  rwa [Specifiers, Node.get, hs, Option.getD_some]

lemma specifiers_of_locals (h : specifierElements (m.get "specifiers") = .ok xs) (hx : x ∈ xs) :
    Specifiers m xs := by
  unfold specifierElements at h
  split at h
  · exact h
  · obtain rfl := Except.ok.inj h
    cases hx

inductive TakenFor (m : Node) (x : Tree) : Kind → Prop
  | imported {K : Kind} : m.is "ImportDeclaration" = true →
      K ∈ [importDefaultSpecifier, .importSpecifier] → x.kind = .ok (.str K.name) →
      TakenFor m x K
  | exported : m.is "ExportNamedDeclaration" = true → TakenFor m x .exportSpecifier

lemma TakenFor.donated {K : Kind} (h : TakenFor m x K) (hkey : key ∈ K.children) :
    key ∈ donated := by
  have hall : ∀ K ∈ [importDefaultSpecifier, .importSpecifier, .exportSpecifier],
      ∀ key ∈ K.children, key ∈ Lowering.donated := by decide
  cases h with
  | imported _ hK _ => exact hall K (mem_append_left [_] hK) key hkey
  | exported => exact hall _ (by simp) key hkey

inductive Mentions (m : Node) : Tree → Prop
  | all {specifiers only bound name : Tree} : m.is "ImportDeclaration" = true →
      m.get? "specifiers" = some specifiers → namespaceSpecifier? specifiers = .ok (some only) →
      only.attr "local" = .ok bound → bound.attr "name" = .ok name → Mentions m name
  | declared {names : List Tree} {x name : Tree} : m.is "ExportNamedDeclaration" = true →
      declaredNames (m.get "declaration") = .ok names → x ∈ names → x.attr "name" = .ok name →
      Mentions m name
  | default {declaration id kind name : Tree} : m.is "ExportDefaultDeclaration" = true →
      m.get? "declaration" = some declaration → declaration.get "id" = .ok id →
      declaration.kind = .ok kind →
      kind.among ["FunctionDeclaration", "ClassDeclaration"] = .ok true →
      id.attr "name" = .ok name → Mentions m name

structure Gives (N C : Tree → Prop) (m : Node) : Prop where
  field : ∀ (K : Kind), m.is K.name = true → ∀ key, K.name ∈ moduleKinds ∧ key ∈ K.children →
    C (m.get key)
  specifier : ∀ xs, Specifiers m xs → ∀ x ∈ xs, ∀ K, TakenFor m x K → Donates K.children C x
  name : ∀ name, Mentions m name → N name

lemma gives_of_fields (hm : ∀ key, key ≠ "type" → C (m.get key))
    (hx : ∀ xs, Specifiers m xs → ∀ x ∈ xs, Donates donated C x) : Gives (fun _ => True) C m where
  field K _ key hkey := hm key fun he => (Tree.children_nodup K).2 (he ▸ hkey.2)
  specifier xs hxs x hmem _ htaken key hkey := hx xs hxs x hmem key (htaken.donated hkey)
  name _ _ := trivial

lemma Destructures.parts {xs ps : List Tree} (h : Destructures xs k ps j) (hC : Grows k N C)
    (hx : ∀ x ∈ xs, ∀ K ∈ [importDefaultSpecifier, .importSpecifier],
      x.kind = .ok (.str K.name) → Donates K.children C x) :
    ∀ t ∈ ps, C t ∧ t.is "Property" = true := by
  induction h with
  | nil => simp
  | @default x bound xs ps k j hk hbound _ ih =>
    have hps := ih (hC.mono (by omega)) fun y hy => hx y (by simp [hy])
    have hdonor := hx x (by simp) .importDefaultSpecifier (by simp) hk
    refine forall_mem_cons.2 ⟨⟨?_, rfl⟩, hps⟩
    exact hC.property (hC.literal (hC.str _) (Nat.le_refl k)) (hdonor "local" (by decide) _ hbound) (by omega)
  | @named x key bound xs ps k j hk hkey hbound _ ih =>
    have hps := ih (hC.mono (by omega)) fun y hy => hx y (by simp [hy])
    have hdonor := hx x (by simp) .importSpecifier (by simp) hk
    refine forall_mem_cons.2 ⟨⟨?_, rfl⟩, hps⟩
    exact hC.property (hdonor "imported" (by decide) _ hkey) (hdonor "local" (by decide) _ hbound)
      (Nat.le_refl k)

lemma PassesOn.grown (h : PassesOn xs k s ps j s') :
    s'.importFn = s.importFn ∧ s'.hasAwait = s.hasAwait ∧ s.exports <+: s'.exports := by
  induction h with
  | nil => exact ⟨rfl, rfl, prefix_rfl⟩
  | cons _ _ _ ih =>
    obtain ⟨hfn, hawait, hexports⟩ := ih
    exact ⟨hfn, hawait, (prefix_append ..).trans hexports⟩

lemma PassesOn.parts {u : State} (h : PassesOn xs k s ps j s') (hC : Assembles u s' k N C)
    (hu : ∀ name ∈ u.names.taken, name ∈ s.names.taken)
    (hx : ∀ x ∈ xs, Donates exportSpecifier.children C x) :
    ∀ t ∈ ps, C t ∧ t.is "Property" = true := by
  induction h with
  | nil => simp
  | @cons x bound exported xs ps k j s s' hbound _ hrest ih =>
    have hfree : (s.use .temporary).1 ∉ s.names.taken := s.names.fresh_free temporaryBase
    have htaken : (s.use .temporary).2.names.taken = (s.use .temporary).1 :: s.names.taken :=
      s.names.taken_fresh temporaryBase
    have hps := ih (hC.mono (by omega)) (fun name hname => by
      change name ∈ (s.use .temporary).2.names.taken
      rw [htaken]
      exact mem_cons_of_mem _ (hu name hname)) fun y hy => hx y (by simp [hy])
    refine forall_mem_cons.2 ⟨⟨?_, rfl⟩, hps⟩
    exact hC.passed _ _ exported _ (Nat.le_refl k) (fun hmem => hfree (hu _ hmem))
      (hrest.grown.2.2.subset (mem_append_right _ (mem_singleton_self _)))
      (hx x (by simp) "local" (by decide) _ hbound)

theorem Declared.assembled (h : Declared m k s t j s') (hC : Assembles s s' k N C)
    (hm : Gives N C m) : C t := by
  have hend : k ≤ importerEnd k s := le_importerEnd
  have hcall {source : Tree} (hfn : s'.importFn = (s.use .importer).2.importFn)
      (ha : s'.hasAwait = (s.use .importer).2.hasAwait) (K : Kind) (hk : m.is K.name = true)
      (hkey : K.name ∈ moduleKinds ∧ "source" ∈ K.children) (hsource : m.get? "source" = some source) :
      C (calledImporter k s source) :=
    hC.importer _ _ (Nat.le_refl k) (hfn.trans (importFn_useImport s))
      (fun hasync => ha.trans (hasAwait_useImport hasync))
      (parts_get? (hm.field K hk _ hkey) hsource)
  cases h with
  | importAll hk hs hsource honly hbound hname =>
    exact hC.grows.constantOf
      (hC.grows.identifier (hm.name _ (.all hk hs honly hbound hname)) hend)
      (hcall rfl rfl .importDeclaration hk (by decide) hsource) (by omega)
  | importNames hk hs hsource he hps =>
    have hle := hps.le
    have hps := hps.parts (hC.grows.mono hend) fun x hx K hK hkind =>
      hm.specifier _ (specifiers_of_get? hs he) x hx K (.imported hk hK hkind)
    exact hC.grows.constantOf (hC.grows.pattern hps (by omega))
      (hcall rfl rfl .importDeclaration hk (by decide) hsource) (by omega)
  | exportFrom hk hs hsource _ he hps =>
    have hle := hps.le
    obtain ⟨hfn, ha, -⟩ := hps.grown
    have htaken := (Extends.use ⟨k, [], s⟩ .importer).taken
    have hps := hps.parts (hC.mono hend) (fun _ hname => htaken.subset hname) fun x hx =>
      hm.specifier _ (specifiers_of_get? hs he) x hx _ (.exported hk)
    exact hC.grows.constantOf (hC.grows.pattern hps (by omega))
      (hcall hfn ha .exportNamedDeclaration hk (by decide) hsource) (by omega)
  | exportDeclared hk => exact hm.field .exportNamedDeclaration hk _ (by decide)
  | exportLocals => exact hC.grows.empty (Nat.le_refl k)
  | exportDefaultName hk hd =>
    exact parts_get? (hm.field .exportDefaultDeclaration hk _ (by decide)) hd
  | exportDefaultValue => exact hC.grows.empty (by omega)
  | exportAll => exact hC.grows.empty hend

theorem Declared.parts (h : Declared m k s t j s') (hC : Builds k N C) (hm : Gives N C m) :
    C t :=
  h.assembled (hC.assembles s s') hm

lemma Declared.fresh (h : Declared m k s new.toTree j s') :
    m.get? "declaration" = some new.toTree ∨
      k ≤ new.id ∧ new.id < j ∧ ∀ key ∈ donated, new.get? key = none := by
  generalize ht : new.toTree = t at h ⊢
  have hend : k ≤ importerEnd k s := le_importerEnd
  have hnew {kind : String} {i : Nat} {fields : List (String × Tree)}
      (hn : new.toTree = .node i (.str kind) fields) (hi : k ≤ i) (hj : i < j)
      (hl : ∀ key ∈ donated, (⟨i, .str kind, fields⟩ : Node).get? key = none) :
      k ≤ new.id ∧ new.id < j ∧ ∀ key ∈ donated, new.get? key = none := by
    obtain rfl : new = ⟨i, .str kind, fields⟩ := toTree_injective hn
    exact ⟨hi, hj, hl⟩
  cases h with
  | importAll =>
    exact .inr (hnew ht (by omega) (by omega) (by simp [donated, Node.get?, Entries.get?]))
  | importNames _ _ _ _ hps | exportFrom _ _ _ _ _ hps =>
    have := hps.le
    exact .inr (hnew ht (by omega) (by omega) (by simp [donated, Node.get?, Entries.get?]))
  | exportDeclared =>
    exact .inl (ht ▸ get?_of_get ht.symm (by simp [toTree]))
  | exportLocals | exportDefaultValue | exportAll =>
    exact .inr (hnew ht (by omega) (by omega) (by simp [donated, Node.get?]))
  | exportDefaultName _ hd => exact .inl hd

end Declarations

section Records

variable {m : Node} {k : Nat} {s s' : State} {t : Tree} {N C : Tree → Prop}

inductive Recorded (m : Node) (k : Nat) (s : State) : Export → Prop
  | names {name key : Tree} {i l : Nat} : Mentions m name → (key = name ∨ key = .str "default") →
      k ≤ i → k ≤ l → i ≠ l →
      Recorded m k s ⟨(Build.identifier name i).1, (Build.identifier key l).1, false⟩
  | bound {xs : List Tree} {x bound exported : Tree} : m.is "ExportNamedDeclaration" = true →
      Specifiers m xs → x ∈ xs → x.attr "local" = .ok bound → x.attr "exported" = .ok exported →
      Recorded m k s ⟨bound, exported, false⟩
  | passed {xs : List Tree} {x exported : Tree} {name : String} {i : Nat} :
      m.is "ExportNamedDeclaration" = true → (m.get "source").isNull = false → Specifiers m xs →
      x ∈ xs → k ≤ i → x.attr "exported" = .ok exported →
      Recorded m k s ⟨(Build.identifier (.str name) (i + 2)).1, exported, false⟩
  | value {declaration : Tree} {i : Nat} : m.is "ExportDefaultDeclaration" = true →
      m.get? "declaration" = some declaration → k ≤ i →
      Recorded m k s ⟨declaration, (Build.identifier (.str "default") i).1, false⟩
  | all {source : Tree} : m.is "ExportAllDeclaration" = true → m.get? "source" = some source →
      Recorded m k s ⟨calledImporter k s source, m.get "exported", (m.get "exported").isNull⟩

def Adds (m : Node) (k : Nat) (base s s' : State) : Prop :=
  ∃ es, s'.exports = s.exports ++ es ∧ ∀ e ∈ es, Recorded m k base e

namespace Adds

lemma of_eq (h : s'.exports = s.exports) : Adds m k base s s' := ⟨[], by simpa using h, nofun⟩

lemma trans {u : State} (h : Adds m k base s s') (h' : Adds m k base s' u) : Adds m k base s u := by
  obtain ⟨es, hes, hall⟩ := h
  obtain ⟨es', hes', hall'⟩ := h'
  refine ⟨es ++ es', by rw [hes', hes, append_assoc], fun e he => ?_⟩
  exact (mem_append.1 he).elim (hall e) (hall' e)

lemma record (h : Recorded m k base e) : Adds m k base s (s.record e) :=
  ⟨[e], rfl, fun _ hf => mem_singleton.1 hf ▸ h⟩

lemma mem (h : Adds m k base s s') (he : e ∈ s'.exports) : e ∈ s.exports ∨ Recorded m k base e := by
  obtain ⟨es, hes, hall⟩ := h
  exact (mem_append.1 (hes ▸ he)).imp_right (hall e)

end Adds

lemma ExportsNames.adds {i : Nat} (h : ExportsNames xs i s j s') (hi : k ≤ i)
    (hx : ∀ x ∈ xs, ∀ name, x.attr "name" = .ok name → Mentions m name) : Adds m k base s s' := by
  induction h with
  | nil => exact .of_eq rfl
  | cons hname _ ih =>
    have hrecord := Recorded.names (s := base) (hx _ (by simp) _ hname) (.inl rfl) hi
      (Nat.le_succ_of_le hi) (Nat.ne_of_lt (Nat.lt_succ_self _))
    exact (Adds.record hrecord).trans (ih (by omega) fun y hy => hx y (by simp [hy]))

lemma PassesOn.adds {ys : List Tree} {i : Nat} (h : PassesOn xs i s ps j s') (hi : k ≤ i)
    (hm : m.is "ExportNamedDeclaration" = true) (hsource : (m.get "source").isNull = false)
    (hy : Specifiers m ys) (hsub : xs ⊆ ys) : Adds m k base s s' := by
  induction h with
  | nil => exact .of_eq rfl
  | @cons x _ _ xs _ i _ _ _ _ hexported _ ih =>
    obtain ⟨hmem, hsub⟩ := cons_subset.1 hsub
    exact ((Adds.of_eq (exports_use ..)).trans (.record
      (.passed hm hsource hy hmem hi hexported))).trans (ih (by omega) hsub)

lemma ExportsLocals.adds {ys : List Tree} (h : ExportsLocals xs s s')
    (hm : m.is "ExportNamedDeclaration" = true) (hy : ∀ x ∈ ys, Specifiers m ys) (hsub : xs ⊆ ys) :
    Adds m k base s s' := by
  induction h with
  | nil => exact .of_eq rfl
  | cons hbound hexported _ ih =>
    obtain ⟨hmem, hsub⟩ := cons_subset.1 hsub
    exact (Adds.record (.bound hm (hy _ hmem) hmem hbound hexported)).trans (ih hsub)

theorem Declared.adds (h : Declared m k s t j s') : Adds m k s s s' := by
  have hend : k ≤ importerEnd k s := le_importerEnd
  cases h with
  | importAll | importNames => exact .of_eq (exports_use ..)
  | exportFrom hk hs hsource hnull he hps =>
    have hnull : (m.get "source").isNull = false := by rwa [Node.get, hsource]
    exact (Adds.of_eq (exports_use ..)).trans
      (hps.adds hend hk hnull (specifiers_of_get? hs he) (Subset.refl _))
  | exportDeclared hk _ _ hnames hexports =>
    exact hexports.adds (Nat.le_refl k) fun _ hx _ hname => .declared hk hnames hx hname
  | exportLocals hk _ _ he hlocals =>
    exact hlocals.adds hk (fun _ => specifiers_of_locals he) (Subset.refl _)
  | exportDefaultName hk hd hid hkind hamong _ hname =>
    exact .record (.names (.default hk hd hid hkind hamong hname) (.inr rfl) (Nat.le_refl k)
      (by omega) (by omega))
  | exportDefaultValue hk hd => exact .record (.value hk hd (Nat.le_refl k))
  | exportAll hk hsource => exact (Adds.of_eq (exports_use ..)).trans (.record (.all hk hsource))

theorem Recorded.grown {e : Export} (h : Recorded m k s e) (hC : Grows k N C)
    (hN : ∀ s, N (.str s)) (hm : Gives N C m)
    (hcall : ∀ source, m.is "ExportAllDeclaration" = true → m.get? "source" = some source →
      C (calledImporter k s source)) :
    C e.declaration ∧ C e.exported := by
  have hdonor {xs : List Tree} {x : Tree} (hk : m.is "ExportNamedDeclaration" = true)
      (hs : Specifiers m xs) (hx : x ∈ xs) : Donates exportSpecifier.children C x :=
    hm.specifier xs hs x hx _ (.exported hk)
  cases h with
  | names hname hkey hi hl _ =>
    refine ⟨hC.identifier (hm.name _ hname) hi, hC.identifier ?_ hl⟩
    rcases hkey with rfl | rfl
    · exact hm.name _ hname
    · exact hN _
  | bound hk hs hmem hbound hexported =>
    exact ⟨hdonor hk hs hmem "local" (by decide) _ hbound,
      hdonor hk hs hmem "exported" (by decide) _ hexported⟩
  | passed hk _ hs hmem hi hexported =>
    exact ⟨hC.identifier (hN _) (by omega), hdonor hk hs hmem "exported" (by decide) _ hexported⟩
  | value hk hd hi =>
    exact ⟨parts_get? (hm.field .exportDefaultDeclaration hk _ (by decide)) hd,
      hC.identifier (hN _) hi⟩
  | all hk hsource =>
    exact ⟨hcall _ hk hsource, hm.field .exportAllDeclaration hk _ (by decide)⟩

theorem Recorded.parts (h : Recorded m k s e) (hC : Builds k N C) (hm : Gives N C m) :
    C e.declaration ∧ C e.exported :=
  h.grown hC.grows hC.text hm fun _ hk hsource =>
    (hC.assembles s (s.use .importer).2).importer k _ (Nat.le_refl k) (importFn_useImport s)
      hasAwait_useImport (parts_get? (hm.field .exportAllDeclaration hk _ (by decide)) hsource)

lemma Declared.calls_exportAll (h : Declared m k s t j s')
    (hk : m.is "ExportAllDeclaration" = true) :
    s'.importFn = some (s.use .importer).1 ∧ (s.importIsAsync = true → s'.hasAwait = true) := by
  cases h with
  | exportAll => exact ⟨importFn_useImport s, hasAwait_useImport⟩
  | importAll ho | importNames ho | exportDefaultName ho | exportDefaultValue ho | exportFrom ho
  | exportDeclared ho | exportLocals ho => exact (is_unique hk ho (by decide)).elim

end Records

section Exports

variable {k : Nat} {N C : Tree → Prop} {t : Tree}

structure Exportable (C : Tree → Prop) (e : Export) : Prop where
  declaration : C e.declaration
  exported : C e.exported
  copy : sameNode e.exported e.declaration = true → ∀ n : Node, e.exported = n.toTree →
    ∀ j, C { n with id := j }.toTree

lemma exportable_of_differ (hd : C e.declaration) (he : C e.exported)
    (h : sameNode e.exported e.declaration = false) : Exportable C e :=
  ⟨hd, he, fun hsame => by rw [h] at hsame; cases hsame⟩

lemma Exported.parts (h : Exported k e t) (hC : Grows k N C) (he : Exportable C e) : C t := by
  cases h with
  | spread _ hi => exact hC.plain .spreadElement hi (by decide) (by simpa using he.declaration)
  | property _ hi hkey =>
    refine hC.property ?_ he.declaration hi
    rcases hkey with rfl | ⟨hsame, n, j, -, hn, rfl⟩
    · exact he.exported
    · exact he.copy hsame n hn j

lemma returned_parts {exports : List Export} (h : returned exports k = (.ok t, j))
    (hC : Grows k N C) (he : ∀ e ∈ exports, Exportable C e) : C t := by
  obtain ⟨-, i, l, ps, hi, hl, hps, rfl⟩ := supplies_returned k exports k t j (Nat.le_refl k) h
  refine hC.ret (hC.plain .objectExpression hi (by decide)
    (forall_mem_singleton.2 (hC.list _ fun x hx => ?_))) hl
  obtain ⟨e, hmem, hex⟩ := exists_of_forall₂ hps hx
  exact hex.parts hC (he e hmem)

lemma Closes.parts {Q : Node → Prop} {m m' : Node} {j : Nat} {s : State} (h : Closes m k s m' j)
    (hb : Parts Q (m.get "body")) (ht : ∀ body t, m'.get? "body" = some (.list (body ++ [t])) →
      returned s.exports k = (.ok t, j) → Parts Q t) :
    m'.is "BlockStatement" = true ∧ ∀ c ∈ slots m', Q c.child := by
  have hblock {n : Node} (hk : n.is "BlockStatement" = true) (hbody : Parts Q (n.get "body")) :
      n.is "BlockStatement" = true ∧ ∀ c ∈ slots n, Q c.child := by
    refine ⟨hk, fun c hc => ?_⟩
    have hkey := ((mem_slots_iff (childKeys_of_kind .blockStatement (is_iff.1 hk))).1 hc).1
    rw [← mem_singleton.1 (show c.key ∈ ["body"] from hkey)] at hbody
    exact hbody c.child (part_of_slot hc)
  cases h with
  | plain => exact hblock rfl (by rwa [get_asBlock])
  | exports _ hbody hret =>
    refine hblock rfl ?_
    rw [get_appended]
    rw [Node.get, hbody] at hb
    refine parts_list.2 fun x hx => ?_
    rcases mem_append.1 hx with hx | hx
    · exact parts_list.1 hb x hx
    · have hlast := ht _ _ (get?_of_get (get_appended ..) (by simp)) hret
      rw [← mem_singleton.1 hx] at hlast
      exact parts_toTree.1 hlast

end Exports

end Overload.Lowering
