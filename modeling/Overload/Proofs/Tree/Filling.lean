import Overload.Proofs.Failing
import Overload.Tree.Conversion

/-!
Parts that are filled from a stack. Main statement: they become what the recursion makes of them,
and the filling fails just if it fails at one of them.
-/

namespace Overload

open List

variable {σ β : Type}

lemma getElem?_append_of_some {xs : List σ} {i : Nat} {x : σ} (h : xs[i]? = some x)
    (ys : List σ) : (xs ++ ys)[i]? = some x := by
  rw [getElem?_append_left (List.getElem?_eq_some_iff.1 h).1, h]

/-! ### References -/

namespace Cell

variable {ofList : List β → β} {f : σ → β} {g : Nat → β}

mutual

theorem close_refer : (c : Cell σ β) → (next : Nat) →
    (∀ k p, c.parts[k]? = some p → g (next + k) = f p) →
    (c.refer next).close ofList g = c.close ofList f
  | .value _, _, _ => rfl
  | .list cs, next, h => congrArg ofList (closeItems_referItems cs next h)
  | .part s, _, h => h 0 s rfl

theorem closeItems_referItems : (cs : List (Cell σ β)) → (next : Nat) →
    (∀ k p, (itemParts cs)[k]? = some p → g (next + k) = f p) →
    closeItems ofList g (referItems cs next) = closeItems ofList f cs
  | [], _, _ => rfl
  | c :: cs, next, h => by
    rw [itemParts] at h
    rw [referItems, closeItems, closeItems, close_refer c next fun k p hk => ?_,
      closeItems_referItems cs _ fun k p hk => ?_]
    · rw [Nat.add_assoc]
      exact h _ p (by rw [getElem?_append_right (Nat.le_add_right ..), Nat.add_sub_cancel_left, hk])
    · exact h k p (getElem?_append_of_some hk _)

end

end Cell

namespace Cells

lemma close_refer {ofList : List β → β} {f : σ → β} {g : Nat → β} (fs : Cells σ β) (next : Nat)
    (h : ∀ k p, fs.parts[k]? = some p → g (next + k) = f p) :
    (fs.refer next).close ofList g = fs.close ofList f := by
  induction fs generalizing next with
  | nil => rfl
  | cons field fs ih =>
    obtain ⟨name, c⟩ := field
    rw [parts_cons] at h
    rw [refer, close, close, map_cons, map_cons, Cell.close_refer c next fun k p hk => ?_]
    · refine congrArg _ (ih _ fun k p hk => ?_)
      rw [Nat.add_assoc]
      exact h _ p (by rw [getElem?_append_right (Nat.le_add_right ..), Nat.add_sub_cancel_left, hk])
    · exact h k p (getElem?_append_of_some hk _)

end Cells

namespace Filling

variable {m : Filling σ β}

/-! ### Filling -/

/-- The shell has the fields of its source, with references to later sources for the parts. -/
def Filled (m : Filling σ β) (sources : List σ) (i : Nat) (s : σ) (shell : Shell β) : Prop :=
  ∃ fs, m.fields s = .ok fs ∧ fs.parts ⊆ sources ∧ ∀ (f : σ → β) (g : Nat → β),
    (∀ j p, i < j → sources[j]? = some p → g j = f p) →
      shell.fields.close m.ofList g = fs.close m.ofList f

lemma Filled.append {sources : List σ} {i : Nat} {s : σ} {shell : Shell β}
    (h : m.Filled sources i s shell) (more : List σ) : m.Filled (sources ++ more) i s shell := by
  obtain ⟨fs, hfs, hparts, hclose⟩ := h
  refine ⟨fs, hfs, fun p hp => mem_append_left _ (hparts hp), fun f g hg => hclose f g ?_⟩
  intro j p hj hp
  exact hg j p hj (getElem?_append_of_some hp more)

/-- Every source has a shell of its kind, which is filled or has its source on the stack. -/
structure Underway (m : Filling σ β) (stack : List (Nat × σ)) (shells : Array (Shell β))
    (sources : List σ) : Prop where
  size : shells.size = sources.length
  stacked : ∀ i s, (i, s) ∈ stack → sources[i]? = some s
  shell : ∀ i s, sources[i]? = some s → ∃ shell, shells[i]? = some shell ∧
    shell.kind = m.kind s ∧ ((i, s) ∈ stack ∨ m.Filled sources i s shell)

lemma mem_pushed {parts : List σ} {next i : Nat} {s : σ} :
    (i, s) ∈ pushed parts next ↔ next ≤ i ∧ parts[i - next]? = some s := by
  rw [pushed, mem_reverse, mem_map]
  constructor
  · rintro ⟨⟨p, j⟩, hp, heq⟩
    obtain ⟨rfl, rfl⟩ := Prod.mk.inj heq
    exact mem_zipIdx_iff_le_and_getElem?_sub.1 hp
  · exact fun h => ⟨(s, i), mem_zipIdx_iff_le_and_getElem?_sub.2 h, rfl⟩

lemma Underway.step {i : Nat} {s : σ} {rest : List (Nat × σ)} {shells : Array (Shell β)}
    {sources : List σ} (h : m.Underway ((i, s) :: rest) shells sources) {fs : Cells σ β}
    (hfs : m.fields s = .ok fs) :
    m.Underway (pushed fs.parts shells.size ++ rest)
      (shells.modify i (fun shell => { shell with fields := fs.refer shells.size }) ++
        (fs.parts.map m.shell).toArray) (sources ++ fs.parts) := by
  have hi := h.stacked i s (.head _)
  have hlt : i < sources.length := (List.getElem?_eq_some_iff.1 hi).1
  refine ⟨by simp [h.size], fun j p hp => ?_, fun j p hp => ?_⟩
  · rcases mem_append.1 hp with hp | hp
    · obtain ⟨hle, hp⟩ := mem_pushed.1 hp
      rw [h.size] at hle hp
      rwa [getElem?_append_right hle]
    · exact getElem?_append_of_some (h.stacked j p (.tail _ hp)) _
  · by_cases hj : j < sources.length
    · rw [getElem?_append_left hj] at hp
      obtain ⟨shell, hshell, hkind, hdone⟩ := h.shell j p hp
      rw [Array.getElem?_append_left (by rwa [Array.size_modify, h.size]), Array.getElem?_modify,
        hshell]
      by_cases hij : i = j
      · subst hij
        obtain rfl : s = p := Option.some.inj (hi.symm.trans hp)
        refine ⟨_, if_pos rfl, hkind, .inr ⟨fs, hfs, fun p hp => mem_append_right _ hp, ?_⟩⟩
        intro f g hg
        refine Cells.close_refer fs _ fun k p hk => hg _ p ?_ ?_
        · exact Nat.lt_of_lt_of_le hlt (h.size ▸ Nat.le_add_right ..)
        · rw [h.size, getElem?_append_right (Nat.le_add_right ..), Nat.add_sub_cancel_left, hk]
      · refine ⟨shell, if_neg hij, hkind, hdone.imp (fun hmem => ?_) fun hf => hf.append _⟩
        refine mem_append_right _ ((mem_cons.1 hmem).resolve_left fun heq => hij ?_)
        exact (Prod.mk.inj heq).1.symm
    · have hle := Nat.not_lt.1 hj
      rw [getElem?_append_right hle] at hp
      refine ⟨m.shell p, ?_, rfl, .inl (mem_append_left _ (mem_pushed.2 ?_))⟩
      · rw [Array.getElem?_append_right (by rwa [Array.size_modify, h.size]), Array.size_modify,
          h.size]
        simp [hp]
      · rw [h.size]
        exact ⟨hle, hp⟩

lemma fill_of_error {i : Nat} {s : σ} {rest : List (Nat × σ)} {shells : Array (Shell β)}
    {fault : Fault} (h : m.fields s = .error fault) :
    m.fill ((i, s) :: rest) shells = .error fault := by
  rw [fill]
  split
  · rename_i h'
    exact congrArg _ (Except.error.inj (h'.symm.trans h))
  · simp_all

lemma fill_of_ok {i : Nat} {s : σ} {rest : List (Nat × σ)} {shells : Array (Shell β)}
    {fs : Cells σ β} (h : m.fields s = .ok fs) :
    m.fill ((i, s) :: rest) shells = m.fill (pushed fs.parts shells.size ++ rest)
      (shells.modify i (fun shell => { shell with fields := fs.refer shells.size }) ++
        (fs.parts.map m.shell).toArray) := by
  rw [fill]
  split
  · simp_all
  · rename_i h'
    obtain rfl := Except.ok.inj (h.symm.trans h')
    rfl

lemma Underway.fill {stack : List (Nat × σ)} {shells done : Array (Shell β)} {sources : List σ}
    (h : m.Underway stack shells sources) (hdone : m.fill stack shells = .ok done) :
    ∃ more, m.Underway [] done (sources ++ more) := by
  induction stack, shells using fill.induct m generalizing sources with
  | case1 shells =>
    rw [Filling.fill] at hdone
    obtain rfl := Except.ok.inj hdone
    exact ⟨[], by rwa [append_nil]⟩
  | case2 shells i s rest fault hfault =>
    rw [fill_of_error hfault] at hdone
    cases hdone
  | case3 shells i s rest fs hfs ih =>
    rw [fill_of_ok hfs] at hdone
    obtain ⟨more, hmore⟩ := ih (h.step hfs) hdone
    exact ⟨fs.parts ++ more, by rwa [← append_assoc]⟩

/-! ### Sources that can be read -/

inductive Sound (m : Filling σ β) : σ → Prop where
  | intro {s : σ} {fs : Cells σ β} (hfs : m.fields s = .ok fs) (hparts : ∀ p ∈ fs.parts, Sound m p) :
    Sound m s

lemma exists_fill {stack : List (Nat × σ)} (h : ∀ e ∈ stack, m.Sound e.2)
    (shells : Array (Shell β)) : ∃ done, m.fill stack shells = .ok done := by
  induction stack, shells using fill.induct m with
  | case1 shells => exact ⟨shells, by rw [fill]⟩
  | case2 shells i s rest fault hfault =>
    obtain ⟨hfs, -⟩ := h (i, s) (.head _)
    rw [hfault] at hfs
    cases hfs
  | case3 shells i s rest fs hfs ih =>
    rw [fill_of_ok hfs]
    refine ih fun e he => ?_
    rcases mem_append.1 he with he | he
    · obtain ⟨hfs', hparts⟩ := h (i, s) (.head _)
      obtain rfl := Except.ok.inj (hfs.symm.trans hfs')
      exact hparts _ (mem_of_getElem? (mem_pushed.1 he).2)
    · exact h e (.tail _ he)

lemma le_totalSize {size : σ → Nat} {p : σ} {parts : List σ} (h : p ∈ parts) :
    size p ≤ totalSize size parts := by
  induction h with
  | head => exact Nat.le_add_right ..
  | tail _ _ ih => exact Nat.le_add_left_of_le ih

lemma Underway.sound {shells : Array (Shell β)} {sources : List σ}
    (h : m.Underway [] shells sources) {s : σ} (hs : s ∈ sources) : m.Sound s := by
  induction hn : m.size s using Nat.strongRecOn generalizing s with
  | _ n ih =>
    obtain ⟨i, hi⟩ := getElem?_of_mem hs
    obtain ⟨shell, -, -, hdone⟩ := h.shell i s hi
    obtain ⟨fs, hfs, hparts, -⟩ := hdone.resolve_left nofun
    refine .intro hfs fun p hp => ih (m.size p) ?_ (hparts hp) rfl
    exact hn ▸ Nat.lt_of_le_of_lt (le_totalSize hp) (m.size_parts s fs hfs)

/-! ### Assembling -/

variable [Inhabited β] {f : σ → β}
  (hf : ∀ s fs, m.fields s = .ok fs → m.make (m.kind s) (fs.close m.ofList f) = f s)
include hf

-- The induction is on what is left of the shells, so that all later ones are values already.
lemma Underway.assembleFrom {shells : Array (Shell β)} {sources : List σ}
    (h : m.Underway [] shells sources) {left : List (Shell β)} {i : Nat}
    (hleft : shells.toList.drop i = left) :
    (left.foldr (fun shell done => done.push (m.make shell.kind
      (shell.fields.close m.ofList fun j => done.getD (shells.size - 1 - j) default))) #[]).toList =
        ((sources.drop i).map f).reverse := by
  induction left generalizing i with
  | nil =>
    have hle : sources.length ≤ i := by
      rw [← h.size]
      exact drop_eq_nil_iff.1 hleft
    rw [drop_eq_nil_of_le hle]
    rfl
  | cons shell left ih =>
    have hlt : i < sources.length := by
      rw [← h.size, ← Array.length_toList]
      exact Nat.lt_of_not_le fun hle => by simp [drop_eq_nil_of_le hle] at hleft
    obtain ⟨s, hs⟩ : ∃ s, sources[i]? = some s := ⟨_, getElem?_eq_getElem hlt⟩
    obtain ⟨shell', hshell, hkind, hdone⟩ := h.shell i s hs
    obtain ⟨fs, hfs, -, hclose⟩ := hdone.resolve_left nofun
    have hrest : shells.toList.drop (i + 1) = left := by
      rw [← tail_drop, hleft, tail_cons]
    obtain rfl : shell' = shell := by
      have := congrArg head? hleft
      rw [head?_drop, Array.getElem?_toList, hshell] at this
      exact Option.some.inj this
    have hdrop : sources.drop i = s :: sources.drop (i + 1) := by
      rw [drop_eq_getElem_cons hlt, (List.getElem?_eq_some_iff.1 hs).2]
    have hlist := ih hrest
    rw [foldr_cons, Array.toList_push, hlist, hdrop, map_cons, reverse_cons, hkind, hclose f]
    · rw [hf s fs hfs]
    · intro j p hj hp
      have hjlt := (List.getElem?_eq_some_iff.1 hp).1
      have hindex : i + 1 + (sources.length - (i + 1) - 1 - (sources.length - 1 - j)) = j := by
        omega
      rw [Array.getD_eq_getD_getElem?, ← Array.getElem?_toList, hlist, h.size, getElem?_reverse,
        length_map, length_drop, getElem?_map, getElem?_drop, hindex, hp]
      · rfl
      · rw [length_map, length_drop]
        omega

/-- Filling gives what the recursion gives, and fails just if a part inside cannot be read. -/
theorem run_eq_ok_iff {s : σ} {b : β} : m.run s = .ok b ↔ m.Sound s ∧ f s = b := by
  have hstart : m.Underway [(0, s)] #[m.shell s] [s] := by
    refine ⟨rfl, fun i p hp => ?_, fun i p hp => ?_⟩
    · obtain ⟨rfl, rfl⟩ := Prod.mk.inj (mem_singleton.1 hp)
      rfl
    · cases i with
      | zero =>
        obtain rfl := Option.some.inj hp
        exact ⟨_, rfl, rfl, .inl (.head _)⟩
      | succ i => cases hp
  have hrun {done : Array (Shell β)} (hdone : m.fill [(0, s)] #[m.shell s] = .ok done) :
      m.run s = .ok (f s) ∧ m.Sound s := by
    obtain ⟨more, hmore⟩ := hstart.fill hdone
    refine ⟨?_, hmore.sound (.head _)⟩
    have hlist : (m.assemble done).toList = ((s :: more).map f).reverse := by
      rw [assemble, ← Array.foldr_toList]
      exact hmore.assembleFrom hf drop_zero
    rw [run, hdone, ok_bind, ← Array.getLast?_toList, hlist, getLast?_reverse]
    rfl
  constructor
  · intro h
    obtain ⟨done, hdone, -⟩ := except_bind_eq_ok.1 h
    obtain ⟨hok, hs⟩ := hrun hdone
    exact ⟨hs, Except.ok.inj (hok.symm.trans h)⟩
  · rintro ⟨hs, rfl⟩
    have hall : ∀ e ∈ [(0, s)], m.Sound e.2 := forall_mem_singleton.2 hs
    obtain ⟨done, hdone⟩ := exists_fill hall #[m.shell s]
    exact (hrun hdone).1

end Filling

end Overload
