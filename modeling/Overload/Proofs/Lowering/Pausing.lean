import Overload.Proofs.Lowering.Keeping
import Overload.Proofs.Lowering.Scope
import Overload.Proofs.Lowering.Tracing

/-! Yields and awaits of the lowered program pause the functions that they paused in the source. -/

namespace Overload.Lowering

open Visit List Overload.Tree Option

variable {ups : List Node} {least : Nat} {n y : Node} {places : List (String × Option Nat)}

/-- An export statement around the node stands in a function, which the exported value leaves. -/
def Moved (ups : List Node) : Prop :=
  ∃ inner n outer, ups = inner ++ n :: outer ∧ (∃ kind ∈ exportKinds, n.is kind = true) ∧
    ∃ f ∈ outer, f.isFunction = true

/-- Between the node and the nearest function of the source around it, there is no function if the
node yields, and there are asynchronous ones only if it awaits. -/
structure Uncut (least : Nat) (z : Node) (downs : List Node) : Prop where
  yields : z.is "YieldExpression" = true → ∀ f ∈ between least downs, f.isFunction = false
  awaits : z.is "AwaitExpression" = true →
    ∀ f ∈ between least downs, f.isFunction = true → (f.get "async").truthy = true

lemma Sealed.uncut {root z : Node} {downs : List Node} (h : Sealed least root)
    (hz : Path root z downs) : Uncut least z downs := ⟨h.yield hz, h.await hz⟩

lemma hosts_of_no_function (h : ∀ u ∈ ups, u.isFunction = false) : hosts least ups = [] := by
  rw [hosts, filter_eq_nil_iff.2, map_nil]
  intro u hu
  simp [h u hu]

lemma Reappears.stays {downs : List Node} (h : Reappears least ups downs) :
    hosts least downs = hosts least ups ∨ Moved ups := by
  rcases h with h | ⟨inner, n, outer, rfl, ⟨kind, hmem, hk⟩, hstays⟩
  · exact .inl h
  · by_cases hf : ∃ f ∈ outer, f.isFunction = true
    · exact .inr ⟨inner, n, outer, rfl, ⟨kind, hmem, hk⟩, hf⟩
    · have hall : ∀ kind ∈ exportKinds, kind ∉ functionKinds := by decide
      have houter : hosts least (n :: outer) = [] := by
        refine hosts_of_no_function (forall_mem_cons.2
          ⟨isFunction_of_kind (Node.is_iff.1 hk) (hall kind hmem), fun f hmem => ?_⟩)
        simpa using fun his => hf ⟨f, hmem, his⟩
      rw [hosts_append, houter, append_nil]
      exact .inl hstays

lemma given_ofData (d : Data) (k : Nat) {root : Node} (hroot : (ofData d k).1 = root.toTree)
    {next : Nat} (hnext : (ofData d k).2 ≤ next) : Given next root := by
  have hnumbers := numbers_ofData d k
  rw [hroot] at hnumbers
  constructor
  · intro i hi
    rw [hnumbers, mem_range'_1] at hi
    omega
  · rw [hnumbers]
    exact nodup_range'

def descend (ok : Node → String × Option Nat → List Node → Bool) :
    Node → List (String × Option Nat) → Option (Node × List Node)
  | n, [] => some (n, [])
  | n, place :: places => do
    let s ← (slots n).find? fun s => s.place == place
    let r ← descend ok s.child places
    if ok n place r.2 then some (r.1, r.2 ++ [n]) else none

lemma descend_cons {ok : Node → String × Option Nat → List Node → Bool}
    {place : String × Option Nat} (h : descend ok n (place :: places) = some (y, ups)) :
    ∃ s ∈ slots n, s.place = place ∧ ∃ below, descend ok s.child places = some (y, below) ∧
      ok n place below = true ∧ ups = below ++ [n] := by
  obtain ⟨s, hs, h⟩ := bind_eq_some_iff.1 h
  obtain ⟨⟨z, below⟩, hz, h⟩ := bind_eq_some_iff.1 h
  split at h
  · rename_i hok
    obtain ⟨rfl, rfl⟩ := Prod.mk.inj (some.inj h)
    exact ⟨s, mem_of_find?_eq_some hs, by simpa using find?_some hs, below, hz, hok, rfl⟩
  · cases h

lemma path_of_descend {ok : Node → String × Option Nat → List Node → Bool}
    (h : descend ok n places = some (y, ups)) : Path n y ups := by
  induction places generalizing n ups with
  | nil =>
    obtain ⟨rfl, rfl⟩ := Prod.mk.inj (some.inj h)
    exact .here
  | cons place places ih =>
    obtain ⟨s, hs, -, below, hbelow, -, rfl⟩ := descend_cons h
    exact .step hs (ih hbelow)

lemma kept_of_descend
    (h : descend (fun n place below => decide (KeepsWith n place below)) n places = some (y, ups)) :
    Kept n y ups := by
  induction places generalizing n ups with
  | nil =>
    obtain ⟨rfl, rfl⟩ := Prod.mk.inj (some.inj h)
    exact .here
  | cons place places ih =>
    obtain ⟨s, hs, rfl, below, hbelow, hok, rfl⟩ := descend_cons h
    exact .step hs (of_decide_eq_true hok) (ih hbelow)

/-- Functions that lowering inserts are sealed: none of them yields, and one that awaits is
asynchronous and its call is awaited. Each node of the source that is still there stands in the
same functions of the source, unless a function exports it, and every yield and every await is still
there that stands in an ordinary place. -/
theorem pauses_keep_their_functions (d : Json) (k : Nat) {root : Node}
    (hroot : (Tree.ofData d k).1 = root.toTree) {options : Options}
    (hc : options.customRules = []) {next : Nat} (hnext : (Tree.ofData d k).2 ≤ next) {s : State}
    (h : (run options root.toTree next).outcome = .ok s) :
    ∃ root' : Node, (run options root.toTree next).tree = root'.toTree ∧ Sealed next root' ∧
      (∀ z downs, Path root' z downs → Uncut next z downs) ∧
      ((∀ kind ∈ exportKinds, root.is kind = false) →
        (∀ y ups z downs, Path root y ups → Path root' z downs → downs ≠ [] → z.id = y.id →
          z.kind = y.kind ∧ (hosts next downs = hosts next ups ∨ Moved ups)) ∧
        ∀ y ups, Kept root y ups → (∃ kind ∈ pauses, y.is kind = true) →
          (root.is "Program" = true ∨ ∀ u ∈ ups, u.is "ExportDefaultDeclaration" = false) →
          Found next root' y (hosts next ups)) := by
  have hl := d.lawful hroot
  have hg := given_ofData d k hroot hnext
  obtain ⟨start, root', q', hs, hv, rfl, hrun⟩ := run_eq_ok hc hl h
  obtain ⟨-, hexports, -⟩ := ofTree_eq_ok hs
  have hready : Ready next ⟨next, [], start⟩ := ⟨Nat.le_refl _, by simp [GoodExports, hexports]⟩
  -- The children are lowered first, whatever is to be shown, and then the root takes a step.
  obtain ⟨m, q, hr, hstep, hext⟩ := lowered_step hl hv
  have hsound : Renewed (Sound next) root ⟨next, [], start⟩ m q :=
    hr.mono fun c hc _ _ _ h => Lowers.sound h (hg.child hc)
  have hsealed := sealed_root hg hready hsound hstep hext
  refine ⟨root', by rw [hrun], hsealed, fun z downs hz => hsealed.uncut hz, fun hexport =>
    ⟨fun y ups z downs hy hz hne hid => ?_, fun y ups hkept hy hend => ?_⟩⟩
  · have htraced := tracedBelow_root (Nat.le_refl next) hexports
      (hr.mono fun _ _ _ _ _ => Lowers.follows) ((hsound.progress carries_sound).2 hready).exports
      hstep hexport
    rcases htraced z downs hz hne (hid ▸ hg.old _ (mem_numbers_of_path hy)) with
      ⟨y', ups', hy', hyz, hkind, hre⟩ | hhidden
    · obtain ⟨rfl, rfl⟩ := path_unique hg.nodup hy hy' (hid.symm.trans hyz.symm)
      exact ⟨hkind.symm, hre.stays⟩
    · exact absurd (hid ▸ hhidden) (not_hidden hg.nodup hy)
  · exact found_root (Nat.le_refl next) (hr.mono fun _ _ _ _ _ => Lowers.retains) hstep hext hexport
      hkept hy hend

def restless : Data :=
  let name (s : String) : Data := .object [("type", .str "Identifier"), ("name", .str s)]
  let assign (token : String) (x value : Data) : Data :=
    .object [("type", .str "AssignmentExpression"), ("operator", .str token), ("left", x),
      ("right", value)]
  let pause (kind : String) (x : Data) : Data := .object [("type", .str kind), ("argument", x)]
  let statement (x : Data) : Data :=
    .object [("type", .str "ExpressionStatement"), ("expression", x)]
  .object [("type", .str "Program"), ("sourceType", .str "module"), ("body", .list [
    .object [("type", .str "FunctionDeclaration"), ("id", name "f"), ("params", .list []),
      ("body", .object [("type", .str "BlockStatement"), ("body", .list [
        statement (assign "+=" (name "x") (assign "+=" (name "y")
          (pause "AwaitExpression" (name "z")))),
        statement (assign "+=" (name "u") (pause "YieldExpression" (name "v")))])]),
      ("generator", .bool true), ("async", .bool true)],
    .object [("type", .str "ExportDefaultDeclaration"), ("declaration",
      pause "AwaitExpression" (assign "-=" (name "w")
        (.object [("type", .str "Literal"), ("value", .num (.int 1))])))]])]

def restlessRoot : Node := (ofData restless 0).1.node?.getD ⟨0, .null, []⟩

def restlessPauses : List (List (String × Option Nat) × String × List Nat) :=
  [([("body", some 0), ("body", none), ("body", some 0), ("expression", none), ("right", none),
      ("right", none)], "AwaitExpression", [1]),
    ([("body", some 0), ("body", none), ("body", some 1), ("expression", none), ("right", none)],
      "YieldExpression", [1]),
    ([("body", some 1), ("declaration", none)], "AwaitExpression", [])]

theorem pauses_keep_their_functions_restless : ∃ (s : State) (root' : Node),
    (run Options.default restlessRoot.toTree 30).outcome = .ok s ∧
    (run Options.default restlessRoot.toTree 30).tree = root'.toTree ∧ Sealed 30 root' ∧
    (∃ f downs, Path root' f downs ∧ f.isFunction = true ∧ 30 ≤ f.id) ∧
    ∀ e ∈ restlessPauses, ∃ z downs, Path root' z downs ∧ z.is e.2.1 = true ∧
      hosts 30 downs = e.2.2 ∧ Uncut 30 z downs := by
  have hok : (run Options.default restlessRoot.toTree 30).outcome.toOption.isSome = true := by
    decide +kernel
  have hinserted : ((run Options.default restlessRoot.toTree 30).tree.node?.bind fun n =>
      (descend (fun _ _ _ => true) n [("body", some 0), ("body", none), ("body", some 0),
        ("expression", none), ("argument", none), ("callee", none)]).map fun r =>
          (r.1.isFunction, decide (30 ≤ r.1.id))) = some (true, true) := by decide +kernel
  have hpauses : ∀ e ∈ restlessPauses, e.2.1 ∈ pauses ∧
      (descend (fun n place below => decide (KeepsWith n place below)) restlessRoot e.1).map
        (fun r => (r.1.is e.2.1, hosts 30 r.2)) = some (true, e.2.2) := by decide +kernel
  obtain ⟨s, hs⟩ := exists_ok_of_isSome hok
  obtain ⟨root', htree, hsealed, huncut, hplaces⟩ := pauses_keep_their_functions
    ⟨restless, by decide +kernel⟩ 0 (show (ofData restless 0).1 = restlessRoot.toTree from rfl) rfl
    (by decide +kernel) hs
  obtain ⟨-, hfound⟩ := hplaces (by decide +kernel)
  obtain ⟨n, hn, hinserted⟩ := bind_eq_some_iff.1 hinserted
  obtain ⟨⟨f, downs⟩, hf, hnew⟩ := map_eq_some_iff.1 hinserted
  obtain rfl : n = root' :=
    Node.toTree_injective ((toTree_of_node? hn).trans htree)
  simp only [Prod.mk.injEq, decide_eq_true_iff] at hnew
  refine ⟨s, n, hs, htree, hsealed, ⟨f, downs, path_of_descend hf, hnew⟩, fun e he => ?_⟩
  obtain ⟨hmem, hmap⟩ := hpauses e he
  obtain ⟨⟨y, ups⟩, hy, hups⟩ := map_eq_some_iff.1 hmap
  obtain ⟨his, hhosts⟩ := Prod.mk.inj hups
  obtain ⟨z, downs, hz, -, hkind, hdowns⟩ :=
    hfound y ups (kept_of_descend hy) ⟨_, hmem, his⟩ (.inl (by decide +kernel))
  refine ⟨z, downs, hz, ?_, hdowns.trans hhosts, huncut z downs hz⟩
  rw [Node.is, hkind]
  exact his

def straying : Data :=
  .object [("type", .str "Program"), ("sourceType", .str "module"), ("body", .list [
    .object [("type", .str "FunctionDeclaration"),
      ("id", .object [("type", .str "Identifier"), ("name", .str "f")]), ("params", .list []),
      ("body", .object [("type", .str "BlockStatement"), ("body", .list [
        .object [("type", .str "ExportDefaultDeclaration"), ("declaration",
          .object [("type", .str "YieldExpression"), ("argument", .null),
            ("delegate", .bool false)])]])]),
      ("generator", .bool true), ("expression", .bool false), ("async", .bool false)]])]

def strayingRoot : Node := (ofData straying 0).1.node?.getD ⟨0, .null, []⟩

theorem yield_leaves_its_function : ∃ (root' y : Node) (ups : List Node) (s : State),
    Tree.ofData straying 0 = (strayingRoot.toTree, 6) ∧
    (run Options.default strayingRoot.toTree 6).outcome = .ok s ∧
    (run Options.default strayingRoot.toTree 6).tree = root'.toTree ∧
    Path strayingRoot y ups ∧ y.is "YieldExpression" = true ∧ hosts 6 ups = [1] ∧
    (∃ z downs, Path root' z downs ∧ z.id = y.id) ∧
    ∀ z downs, Path root' z downs → z.id = y.id → hosts 6 downs = [] := by
  have hok : (run Options.default strayingRoot.toTree 6).outcome.toOption.isSome = true := by
    decide +kernel
  have hbefore : (descend (fun _ _ _ => true) strayingRoot [("body", some 0), ("body", none),
      ("body", some 0), ("declaration", none)]).map
        (fun r => (r.1.id, r.1.is "YieldExpression", hosts 6 r.2)) = some (5, true, [1]) := by
    decide +kernel
  have hafter : ((run Options.default strayingRoot.toTree 6).tree.node?.bind fun n =>
      (descend (fun _ _ _ => true) n [("body", some 1), ("argument", none), ("properties", some 0),
        ("value", none)]).map fun r => (r.1.id, hosts 6 r.2)) = some (5, []) := by decide +kernel
  have hnodup : (run Options.default strayingRoot.toTree 6).tree.numbers.Nodup := by decide +kernel
  obtain ⟨s, hs⟩ := exists_ok_of_isSome hok
  obtain ⟨⟨y, ups⟩, hy, hups⟩ := map_eq_some_iff.1 hbefore
  obtain ⟨root', hroot', hafter⟩ := bind_eq_some_iff.1 hafter
  obtain ⟨⟨z, downs⟩, hz, hdowns⟩ := map_eq_some_iff.1 hafter
  simp only [Prod.mk.injEq] at hups hdowns
  have htree := (toTree_of_node? hroot').symm
  refine ⟨root', y, ups, s, rfl, hs, htree, path_of_descend hy, hups.2.1, hups.2.2,
    ⟨z, downs, path_of_descend hz, hdowns.1.trans hups.1.symm⟩, fun z' downs' hz' hid => ?_⟩
  rw [htree] at hnodup
  obtain ⟨rfl, -⟩ := path_unique hnodup (path_of_descend hz) hz'
    ((hdowns.1.trans hups.1.symm).trans hid.symm)
  exact hdowns.2

end Overload.Lowering
