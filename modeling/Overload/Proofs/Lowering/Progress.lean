import Overload.Proofs.Lowering.Exports
import Overload.Proofs.Names
import Overload.Proofs.Visit.Sweep

/-! What a property of the state needs to be kept by every rule, and so by every visit. -/

namespace Overload.Lowering

open Visit

structure Closed (I : Progress State → Prop) : Prop where
  build : ∀ p k, I p → p.next ≤ k → I { p with next := k }
  use : ∀ p h, I p → I { p with state := (p.state.use h).2 }
  record : ∀ p e, I p → I { p with state := { p.state with exports := p.state.exports ++ [e] } }
  await : ∀ p, I p → I { p with state := { p.state with hasAwait := true } }

variable {I : Progress State → Prop}

lemma Routine.keeps (hI : Closed I) {α : Type} {a : Step α} (h : Routine a) :
    Ensures (fun c => I c.progress) a fun _ => True := by
  induction h with
  | pure x => exact .pure trivial
  | throw e => exact .throw e
  | lift r => exact .lift fun _ _ => trivial
  | getState => exact .getState fun _ _ => trivial
  | getNode => exact .getNode fun _ _ => trivial
  | build hf => exact .build fun c hc => ⟨hI.build _ _ hc (hf c.next), trivial⟩
  | use h => exact Triple.of_eq (fun _ => rfl) fun c hc => ⟨hI.use c.progress h hc, trivial⟩
  | record e => exact Triple.of_eq (fun _ => rfl) fun c hc => ⟨hI.record c.progress e hc, trivial⟩
  | await => exact Triple.of_eq (fun _ => rfl) fun c hc => ⟨hI.await c.progress hc, trivial⟩
  | replaceBy t => exact Triple.replaceBy fun _ _ _ hc _ _ => ⟨hc, trivial⟩
  | bind _ _ iha ihf => exact Ensures.bind iha fun x _ => ihf x

lemma programRule_root_progress (hI : Closed I) {c d : Context State}
    (hp : c.site.parent = none) (h : programRule c = (.ok (), d)) (hc : I c.progress) :
    I d.progress := by
  rw [programRule_root hp] at h
  split at h
  · rw [closeProgram_eq] at h
    split at h
    · split at h
      · rename_i body t next ht
        obtain ⟨-, rfl⟩ := Prod.mk.inj h
        exact hI.build _ _ hc (supplies_returned 0 _ _ _ _ (Nat.zero_le _) ht).1
      · cases congrArg Prod.fst h
    · cases congrArg Prod.fst h
    · cases congrArg Prod.fst h
  · obtain ⟨-, rfl⟩ := Prod.mk.inj h
    exact hc

lemma identify_eq_ok {s u : State} {name : Tree} (h : s.identify name = .ok u) :
    u = { s with identifiers := Tree.insertKey s.identifiers name } := by
  unfold State.identify Tree.key at h
  split at h
  · simpa [bind, Except.bind, pure, Except.pure, eq_comm] using h
  · simp [bind, Except.bind] at h

lemma identifierRule_eq (c : Context State) : identifierRule c =
    match c.site.node.attr "name" with
    | .ok name =>
      match c.state.identify name with
      | .ok s => (.ok (), { c with state := s })
      | .error e => (.error e, c)
    | .error e => (.error e, c) := by
  have hattr : attr "name" c = (c.site.node.attr "name", c) := rfl
  rw [identifierRule, bind_def, hattr]
  cases c.site.node.attr "name" with
  | error e => rfl
  | ok name =>
    change (lift (c.state.identify name) >>= fun s => setState s) c = _
    rw [bind_def]
    dsimp only [lift]
    cases c.state.identify name <;> rfl

lemma finish_progress (hI : Closed I) {n : Node} {place : Place} {p : Progress State}
    (h : (finish builtinRules place n p).outcome = .ok ()) (hp : I p) :
    n.is "Identifier" = false ∧ I (finish builtinRules place n p).progress ∨
      ∃ name s, n.is "Identifier" = true ∧ n.attr "name" = .ok name ∧
        p.state.identify name = .ok s ∧
        finish builtinRules place n p = ⟨.ok (), n, { p with state := s }⟩ := by
  rcases finish_cases h with ⟨he, hnone⟩ | ⟨kind, rule, d, hk, hr, hd, he⟩
  · refine .inl ⟨?_, by rwa [he]⟩
    rw [Node.is]
    split
    · rename_i kind hk
      by_contra hkind
      have := hnone kind hk
      simp only [Bool.not_eq_false, beq_iff_eq] at hkind
      subst hkind
      simp [builtinRules, operatorRules, moduleRules, generalRules, Entries.get?] at this
    · rfl
  · rw [he, Node.is_of_kind hk]
    by_cases hkind : kind = "Identifier"
    · obtain rfl : rule = identifierRule := by
        simpa [hkind, builtinRules, operatorRules, moduleRules, generalRules, Entries.get?,
          eq_comm] using hr
      rw [identifierRule_eq] at hd
      split at hd
      · rename_i name hname
        split at hd
        · rename_i s hs
          obtain ⟨-, rfl⟩ := Prod.mk.inj hd
          exact .inr ⟨name, s, by simp [hkind], hname, hs, rfl⟩
        · cases congrArg Prod.fst hd
      · cases congrArg Prod.fst hd
    · refine .inl ⟨by simp [hkind], ?_⟩
      rcases routine_of_mem (Entries.mem_of_get? hr) (List.mem_singleton_self rule) with
        hr | ⟨-, rfl⟩ | ⟨rfl, -⟩
      · exact (hr.keeps hI ⟨siteAt place n, p.next, p.notes, p.state⟩ hp _ _ hd).1
      · cases hpar : place.parent with
        | none => exact programRule_root_progress hI hpar hd hp
        | some q =>
          rw [programRule_child (p := q) hpar] at hd
          obtain ⟨-, rfl⟩ := Prod.mk.inj hd
          exact hp
      · exact absurd rfl hkind

def Notes (I : Progress State → Prop) : Prop :=
  ∀ p name s, I p → p.state.identify name = .ok s → I { p with state := s }

lemma finish_keeps (hI : Closed I) (hn : Notes I) {n : Node} {place : Place} {p : Progress State}
    (h : (finish builtinRules place n p).outcome = .ok ()) (hp : I p) :
    I (finish builtinRules place n p).progress := by
  rcases finish_progress hI h hp with ⟨-, hq⟩ | ⟨name, s, -, -, hs, he⟩
  · exact hq
  · rw [he]
    exact hn p name s hp hs

lemma visit_keeps (hI : Closed I) (hn : Notes I) {root : Node} (hl : Lawful root) {place : Place}
    {p : Progress State} (h : (visit builtinRules root place p).outcome = .ok ()) (hp : I p) :
    I (visit builtinRules root place p).progress := by
  have hR : Carries (fun _ p _ q => I p → I q) fun p q => I p → I q :=
    ⟨fun _ => id, fun h h' hp => h' (h hp), id⟩
  obtain ⟨m, q, hm, hv⟩ := renewed_root (P := fun _ p _ q => I p → I q) hl
    (fun n m p q parent key index _ hr ho hp => finish_keeps hI hn ho (hr.progress hR hp)) h
  rw [hv] at h ⊢
  exact finish_keeps hI hn h (hm.progress hR hp)

end Overload.Lowering
