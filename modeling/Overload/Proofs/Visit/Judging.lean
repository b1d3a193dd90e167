import Overload.Proofs.Visit.Chain
import Overload.Proofs.Visit.Order

/-! Where a visit fails. -/

namespace Overload.Visit

open List

variable {σ : Type} {table : Table σ}

def postorder (n : Node) : List Node :=
  ((slots n).attach.flatMap fun s => postorder s.1.child) ++ [n]
termination_by n.toTree.size
decreasing_by exact mem_slots_size s.2

def postorderIn (ss : List Slot) : List Node := ss.flatMap fun s => postorder s.child

lemma postorder_eq (n : Node) : postorder n = postorderIn (slots n) ++ [n] := by
  rw [postorder, postorderIn]
  conv_rhs => rw [← attach_map_subtype_val (slots n), flatMap_map]

lemma mem_postorder {n m : Node} : m ∈ postorder n ↔ Below n m := by
  induction hs : n.toTree.size using Nat.strongRecOn generalizing n with
  | ind size ih =>
    rw [postorder_eq, below_iff, mem_append, mem_singleton, or_comm, postorderIn,
      mem_flatMap]
    refine or_congr_right (exists_congr fun s => and_congr_right fun hmem => ?_)
    exact ih _ (hs ▸ mem_slots_size hmem) rfl

inductive Verdict (A : Node → Prop) (O : Node → Fault → Prop) (ns : List Node) :
    Except Fault Unit → Prop
  | accepted : (∀ n ∈ ns, A n) → Verdict A O ns (.ok ())
  | rejected (before after : List Node) {n : Node} {fault : Fault} : ns = before ++ n :: after →
      (∀ m ∈ before, A m) → O n fault → Verdict A O ns (.error fault)

variable {A : Node → Prop} {O : Node → Fault → Prop}

namespace Verdict

variable {ns ms : List Node} {r : Except Fault Unit}

lemma all (h : Verdict A O ns (.ok ())) : ∀ n ∈ ns, A n := by
  cases h with
  | accepted h => exact h

lemma append (h : ∀ n ∈ ns, A n) (h' : Verdict A O ms r) : Verdict A O (ns ++ ms) r := by
  cases h' with
  | accepted h' => exact .accepted fun n hn => (mem_append.1 hn).elim (h n) (h' n)
  | rejected before after hms hbefore hn =>
    refine .rejected (ns ++ before) after ?_ (fun m hm => ?_) hn
    · rw [hms, append_assoc]
    · exact (mem_append.1 hm).elim (h m) (hbefore m)

lemma of_error {fault : Fault} (h : Verdict A O ns (.error fault)) (ms : List Node) :
    Verdict A O (ns ++ ms) (.error fault) := by
  cases h with
  | rejected before after hns hbefore hn =>
    refine .rejected before (after ++ ms) ?_ hbefore hn
    rw [hns, append_assoc, cons_append]

lemma single {n : Node} (h : A n ∧ r = .ok () ∨ ∃ fault, O n fault ∧ r = .error fault) :
    Verdict A O [n] r := by
  rcases h with ⟨hn, rfl⟩ | ⟨fault, hn, rfl⟩
  · exact .accepted fun m hm => mem_singleton.1 hm ▸ hn
  · exact .rejected [] [] rfl (by simp) hn

end Verdict

def Judged (table : Table σ) (I : Progress σ → Prop) (A : Node → Prop) (O : Node → Fault → Prop)
    (n : Node) : Prop :=
  ∀ (parent : Node) (key : String) (index : Option Nat) (p : Progress σ),
    Site.holds parent key index n.id = true → I p →
    Verdict A O (postorder n) (visit table n ⟨some parent, key, index⟩ p).outcome

variable {I : Progress σ → Prop}

lemma Renewed.kept {n m : Node} {p q : Progress σ} (h : Renewed (Becomes table) n p m q)
    (hI : ∀ s ∈ slots n, ∀ p c q, Becomes table s.child p c q → I p → I q) (hp : I p) : I q := by
  have hr : Renewed (fun _ a _ b => I a → I b) n p m q := h.mono hI
  exact hr.progress (R := fun a b => I a → I b) ⟨fun _ h => h, fun h h' hp => h' (h hp), fun h => h⟩ hp

lemma sweep_judged {ss : List Slot} (hj : ∀ s ∈ ss, Judged table I A O s.child)
    (hl : ∀ s ∈ ss, Lawful s.child)
    (hI : ∀ s ∈ ss, ∀ p c q, Becomes table s.child p c q → I p → I q)
    {m : Node} (hm : Laid m ss) {p : Progress σ} (hp : I p) :
    Verdict A O (postorderIn ss) (sweep (visitSlot table) ss m p).outcome := by
  induction ss generalizing m p with
  | nil => exact .accepted (by simp [postorderIn])
  | cons s rest ih =>
    have hs : Verdict A O (postorder s.child) (visitSlot table s m p).outcome :=
      hj s (by simp) m s.key s.index p (holds_of_mem_fieldSlots hm.head) hp
    have hkept (ho : (visitSlot table s m p).outcome = .ok ()) : I (visitSlot table s m p).progress :=
      hI s (by simp) p _ _ ⟨hl s (by simp), m, s.key, s.index, by rw [← ho]; rfl⟩ hp
    rw [sweep, postorderIn, flatMap_cons]
    generalize visitSlot table s m p = r at hs hkept ⊢
    cases ho : r.outcome with
    | error e =>
      rw [ho] at hs
      exact hs.of_error _
    | ok u =>
      rw [ho] at hs
      exact .append hs.all (ih (fun t ht => hj t (by simp [ht])) (fun t ht => hl t (by simp [ht]))
        (fun t ht => hI t (by simp [ht])) (hm.next _) (hkept ho))

lemma visit_cases {n : Node} {keys : List String} (hk : n.childKeys = .ok keys) (hl : Lawful n)
    (hj : ∀ s ∈ slots n, Judged table I A O s.child)
    (hI : ∀ s ∈ slots n, ∀ p c q, Becomes table s.child p c q → I p → I q) (place : Place)
    {p : Progress σ} (hp : I p) :
    (∃ m q, Renewed (Becomes table) n p m q ∧ visit table n place p = finish table place m q ∧
        ∀ k ∈ postorderIn (slots n), A k) ∨
      ∃ fault, (visit table n place p).outcome = .error fault ∧
        Verdict A O (postorderIn (slots n)) (.error fault) := by
  obtain ⟨hnodup, htype⟩ := hl n .refl keys hk
  have hslots := slots_of_childKeys hk
  rw [hslots] at hj hI ⊢
  have hlaid := laid_slotsOf (n := n) hnodup htype
  have hsweep := sweep_judged hj (fun s hs => hl.child (hslots ▸ hs)) hI hlaid hp
  rw [visit_of_childKeys hk]
  cases ho : (sweep (visitSlot table) (slotsOf n keys) n p).outcome with
  | error fault =>
    rw [ho] at hsweep
    exact .inr ⟨fault, rfl, hsweep⟩
  | ok u =>
    rw [ho] at hsweep
    refine .inl ⟨_, _, ⟨keys, hk, hnodup, htype, swept_of_sweep hlaid ho fun s hs m p hv => ?_⟩,
      rfl, hsweep.all⟩
    exact ⟨hl.child (hslots ▸ hs), m, s.key, s.index, by rw [← hv]; rfl⟩

theorem judged {root : Node} (hl : Lawful root)
    (hkeys : ∀ n, Below root n → ∃ keys, n.childKeys = .ok keys)
    (hI : ∀ n, Below root n → ∀ p m q, Becomes table n p m q → I p → I q)
    (step : ∀ n m p q parent key index, Below root n → I p → Renewed (Becomes table) n p m q →
      Site.holds parent key index m.id = true →
      Verdict A O [n] (finish table ⟨some parent, key, index⟩ m q).outcome)
    {n : Node} (hb : Below root n) : Judged table I A O n := by
  induction hs : n.toTree.size using Nat.strongRecOn generalizing n with
  | ind size ih =>
    intro parent key index p hplace hp
    obtain ⟨keys, hk⟩ := hkeys n hb
    have hj : ∀ s ∈ slots n, Judged table I A O s.child := fun s hmem =>
      ih _ (hs ▸ mem_slots_size hmem) (hb.child hmem) rfl
    have hI' : ∀ s ∈ slots n, ∀ p c q, Becomes table s.child p c q → I p → I q :=
      fun s hmem => hI s.child (hb.child hmem)
    rw [postorder_eq]
    rcases visit_cases hk (fun k hk => hl k (hb.trans hk)) hj hI' ⟨some parent, key, index⟩ hp with
      ⟨m, q, hr, hv, hall⟩ | ⟨fault, hv, hfault⟩
    · rw [hv]
      refine .append hall (step n m p q parent key index hb hp hr ?_)
      rwa [hr.id]
    · rw [hv]
      exact hfault.of_error _

end Overload.Visit
