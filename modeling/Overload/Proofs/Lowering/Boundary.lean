import Overload.Proofs.Lowering.Building

/-! Functions that rules insert. -/

namespace Overload.Lowering

open Visit List

variable {f n : Node} {ups : List Node}

def Awaited (f : Node) (ups : List Node) : Prop :=
  (f.get "async").truthy = true ∧ ∃ call pause rest, ups = call :: pause :: rest ∧
    call.is "CallExpression" = true ∧ call.get "callee" = f.toTree ∧
    pause.is "AwaitExpression" = true ∧ pause.get "argument" = call.toTree

structure Seal (f : Node) (ups : List Node) : Prop where
  arrow : f.is "ArrowFunctionExpression" = true
  yields : ∀ y, Direct f y → y.is "YieldExpression" = false
  awaits : ∀ y, Direct f y → y.is "AwaitExpression" = true → Awaited f ups

lemma Seal.append (h : Seal f ups) (above : List Node) :
    Seal f (ups ++ above) where
  arrow := h.arrow
  yields := h.yields
  awaits y hy ha := by
    obtain ⟨hasync, call, pause, rest, rfl, hcall⟩ := h.awaits y hy ha
    exact ⟨hasync, call, pause, rest ++ above, rfl, hcall⟩

def SealedIn (least : Nat) (above : List Node) (n : Node) : Prop :=
  ∀ f ups, Path n f ups → least ≤ f.id → f.isFunction = true → Seal f (ups ++ above)

abbrev Sealed (least : Nat) (n : Node) : Prop := SealedIn least [] n

variable {least : Nat}

lemma Sealed.under {n : Node} (h : Sealed least n) (above : List Node) : SealedIn least above n := by
  intro f ups hp hf hfun
  have := (h f ups hp hf hfun).append above
  rwa [append_nil] at this

lemma SealedIn.of_slots {above : List Node} (hn : least ≤ n.id → n.isFunction = true → Seal n above)
    (h : ∀ s ∈ slots n, SealedIn least (n :: above) s.child) : SealedIn least above n := by
  intro f ups hp hf hfun
  cases hp with
  | here => exact hn hf hfun
  | step hs hp =>
    rw [append_assoc]
    exact h _ hs f _ hp hf hfun

lemma SealedIn.of_kind {above : List Node} {kind : String} (hk : n.kind = .str kind)
    (hf : kind ∉ Tree.functionKinds) (h : ∀ s ∈ slots n, SealedIn least (n :: above) s.child) :
    SealedIn least above n :=
  SealedIn.of_slots (fun _ hn => by rw [isFunction_of_kind hk hf] at hn; cases hn) h

lemma Sealed.of_slots (hn : n.isFunction = true → n.id < least)
    (h : ∀ s ∈ slots n, Sealed least s.child) : Sealed least n :=
  SealedIn.of_slots (fun hid hf => absurd (hn hf) (by omega)) fun s hs => (h s hs).under _

section Called

variable {k : Nat} {body : List Tree} {isAsync : Bool}

lemma direct_of_arrow {kind : String} (h : Lacks kind (Build.block body k).1) {y : Node}
    (hy : Direct (arrowOf k body isAsync) y) : y.is kind = false := by
  obtain ⟨s, hs, ups, hp, hf⟩ := hy
  have hc : Lacks kind s.child.toTree := child_of_arrow (P := fun c => Lacks kind c.toTree) h.parts hs
  exact Tree.is_of_contains hc hp hf

lemma seal_arrowOf (h : Callable (Build.block body k).1 isAsync)
    (hu : isAsync = true → Awaited (arrowOf k body isAsync) ups) :
    Seal (arrowOf k body isAsync) ups where
  arrow := rfl
  yields _ := direct_of_arrow h.yields
  awaits y hd his := by
    cases isAsync with
    | true => exact hu rfl
    | false =>
      rw [direct_of_arrow (h.awaits rfl) hd] at his
      cases his

lemma parts_settled (hb : Parts (Sealed least) (Build.block body k).1)
    (h : Callable (Build.block body k).1 isAsync) :
    Parts (Sealed least) (settled k body isAsync) := by
  have harrow (above : List Node) (hu : isAsync = true → Awaited (arrowOf k body isAsync) above) :
      SealedIn least above (arrowOf k body isAsync) :=
    .of_slots (fun _ _ => seal_arrowOf h hu) fun s hs =>
      (child_of_arrow (P := Sealed least) hb hs).under _
  have hcall (above : List Node) (hu : isAsync = true →
      Awaited (arrowOf k body isAsync) (callOf k body isAsync :: above)) :
      SealedIn least above (callOf k body isAsync) := by
    refine .of_kind rfl (by decide) fun s hs => ?_
    exact child_of_call (P := SealedIn least (callOf k body isAsync :: above)) (harrow _ hu) hs
  rw [settled_eq]
  cases isAsync with
  | false => exact parts_toTree.2 (hcall [] (by simp))
  | true =>
    refine parts_toTree.2 (SealedIn.of_kind rfl (by decide) fun s hs => ?_)
    exact child_of_pause (P := SealedIn least [pauseOf k body]) (hcall _ fun _ =>
      ⟨rfl, callOf k body true, pauseOf k body, [], rfl, rfl, rfl, rfl, rfl⟩) hs

lemma builds_sealed : Builds k (fun _ => True) (Parts (Sealed least)) := by
  refine builds_of_slots (fun _ => trivial) (fun _ _ hf _ h => .of_slots (fun hn => ?_) h)
    fun _ _ _ _ => parts_settled
  rw [hf] at hn
  cases hn

end Called

lemma Seal.overwrite {old new : Node} (h : Seal f (ups ++ [new])) :
    Seal f (ups ++ [old.overwrite new]) where
  arrow := h.arrow
  yields := h.yields
  awaits y hy ha := by
    obtain ⟨hasync, call, pause, rest, hups, hcall, hf, hpause, hc⟩ := h.awaits y hy ha
    refine ⟨hasync, ?_⟩
    match ups, hups with
    | [], hups => simp at hups
    | [c], hups =>
      obtain ⟨rfl, rfl, rfl⟩ : c = call ∧ new = pause ∧ rest = [] := by simpa [eq_comm] using hups
      exact ⟨c, old.overwrite new, [], rfl, hcall, hf, hpause, hc⟩
    | c :: u :: more, hups =>
      obtain ⟨rfl, rfl, rfl⟩ : c = call ∧ u = pause ∧ rest = more ++ [new] := by
        simpa [eq_comm] using hups
      exact ⟨c, u, more ++ [old.overwrite new], rfl, hcall, hf, hpause, hc⟩

lemma Sealed.landed {parent : Option Node} {old new : Node} (h : Sealed least new)
    (ho : old.id < least) : Sealed least (landed parent old new) := by
  cases parent with
  | some _ => exact h
  | none =>
    intro f ups hp hf hfun
    cases hp with
    | here => exact absurd ho (by simpa [Visit.landed, Node.overwrite] using hf)
    | @step _ _ s ups hs hp =>
      have hs' : s ∈ slots new := hs
      have := h f _ (.step hs' hp) hf hfun
      rw [append_nil] at this ⊢
      exact this.overwrite

section Placement

variable {root y : Node}

def between (least : Nat) (ups : List Node) : List Node :=
  ups.takeWhile fun u => !(u.isFunction && decide (u.id < least))

def hosts (least : Nat) (ups : List Node) : List Nat :=
  (ups.filter fun u => u.isFunction && decide (u.id < least)).map (·.id)

lemma hosts_append (ups above : List Node) :
    hosts least (ups ++ above) = hosts least ups ++ hosts least above := by
  simp [hosts]

lemma hosts_of_new (h : ∀ u ∈ ups, least ≤ u.id) : hosts least ups = [] := by
  rw [hosts, filter_eq_nil_iff.2, map_nil]
  intro u hu
  simp [Nat.not_lt.2 (h u hu)]

lemma hosts_congr {u v : Node} (hid : u.id = v.id) (hk : u.kind = v.kind) :
    hosts least [u] = hosts least [v] := by
  have his : u.is = v.is := by
    funext kind
    rw [Node.is, Node.is, hk]
  have hf : u.isFunction = v.isFunction := by rw [Node.isFunction, Node.isFunction, his]
  simp only [hosts, filter_cons, filter_nil, hf, hid]
  split <;> simp [hid]

lemma hosts_singleton {u : Node} (h : u.isFunction = false) : hosts least [u] = [] := by
  simp [hosts, h]

lemma nearest_of_between (hf : f ∈ between least ups) (hfun : f.isFunction = true) :
    ∃ downs g rest, ups = downs ++ g :: rest ∧ (∀ u ∈ downs, u.isFunction = false) ∧
      g.isFunction = true ∧ least ≤ g.id := by
  induction ups with
  | nil => simp [between] at hf
  | cons u ups ih =>
    rw [between, takeWhile_cons] at hf
    split at hf
    · rename_i hu
      cases hfu : u.isFunction with
      | true =>
        refine ⟨[], u, ups, rfl, by simp, hfu, ?_⟩
        simpa [hfu] using hu
      | false =>
        rcases mem_cons.1 hf with rfl | hf
        · rw [hfun] at hfu
          cases hfu
        · obtain ⟨downs, g, rest, rfl, hdowns, hg⟩ := ih hf
          exact ⟨u :: downs, g, rest, rfl, by simpa [hfu] using hdowns, hg⟩
    · simp at hf

lemma direct_of_path {downs rest : List Node} (h : Path root y (downs ++ f :: rest))
    (hd : ∀ u ∈ downs, u.isFunction = false) : Direct f y := by
  obtain ⟨s, hs, hp⟩ := h.split.2
  exact ⟨s, hs, downs, hp, hd⟩

lemma Sealed.yield (h : Sealed least root) (hp : Path root y ups)
    (hy : y.is "YieldExpression" = true) : ∀ f ∈ between least ups, f.isFunction = false := by
  intro f hf
  by_contra hfun
  obtain ⟨downs, g, rest, rfl, hdowns, hg, hid⟩ := nearest_of_between hf (by simpa using hfun)
  have hseal := h g rest hp.split.1 hid hg
  rw [hseal.yields y (direct_of_path hp hdowns)] at hy
  cases hy

lemma Sealed.await (h : Sealed least root) (hp : Path root y ups)
    (hy : y.is "AwaitExpression" = true) :
    ∀ f ∈ between least ups, f.isFunction = true → (f.get "async").truthy = true := by
  induction hn : ups.length using Nat.strongRecOn generalizing y ups with
  | ind size ih =>
    intro f hf hfun
    obtain ⟨downs, g, rest, rfl, hdowns, hg, hid⟩ := nearest_of_between hf hfun
    obtain ⟨hpath, -⟩ := hp.split
    have hseal := h g rest hpath hid hg
    rw [append_nil] at hseal
    obtain ⟨hasync, call, pause, above, rfl, hcall, -, hpause, -⟩ :=
      hseal.awaits y (direct_of_path hp hdowns) hy
    have hpause' : Path root pause above :=
      (show Path root g ([call] ++ pause :: above) from hpath).split.1
    have hno {u : Node} {kind : String} (hu : u.is kind = true) (hk : kind ∉ Tree.functionKinds) :
        u.isFunction = false := isFunction_of_kind (Node.is_iff.1 hu) hk
    have hbetween : between least (downs ++ g :: call :: pause :: above) =
        downs ++ g :: call :: pause :: between least above := by
      have hdowns' : ∀ u ∈ downs, (!(u.isFunction && decide (u.id < least))) = true :=
        fun u hu => by simp [hdowns u hu]
      rw [between, takeWhile_append_of_pos hdowns']
      simp [between, hno hcall (by decide), hno hpause (by decide),
        Nat.not_lt.2 hid]
    rw [hbetween] at hf
    simp only [mem_append, mem_cons] at hf
    rcases hf with hf | rfl | rfl | rfl | hf
    · rw [hdowns f hf] at hfun
      cases hfun
    · exact hasync
    · rw [hno hcall (by decide)] at hfun
      cases hfun
    · rw [hno hpause (by decide)] at hfun
      cases hfun
    · refine ih _ ?_ hpause' hpause rfl f hf hfun
      rw [← hn]
      simp
      omega

end Placement

end Overload.Lowering
