import Overload.Proofs.Visit.Recursion

/-! The stack of frames computes the recursion, and the steps of a visit are enough for it. -/

namespace Overload.Visit

open Overload.Visit.Frame Overload.Tree List Option

variable {σ : Type} {table : Table σ}

def proceed (table : Table σ) (fuel : Nat) (f : Frame) (outer : List Frame) (r : Result σ) :
    Visited σ :=
  match r.outcome with
  | .error e => ⟨.error e, { f with node := r.node }.unwind outer, r.progress⟩
  | .ok _ => runFrames table fuel { f with node := r.node } outer r.progress

def close (table : Table σ) (fuel : Nat) (key : String) (index : Option Nat) :
    List Frame → Result σ → Visited σ
  | [], r => ⟨r.outcome, r.node.toTree, r.progress⟩
  | o :: rest, r =>
    proceed table fuel o rest ⟨r.outcome, fill o.node key index r.node, r.progress⟩

def Ready (outer : List Frame) (key : String) (index : Option Nat) (id : Nat) : Prop :=
  ∀ o ∈ outer.head?, Site.holds o.node key index id = true ∧ ∀ s ∈ o.scan, s.orphan = none

def Agrees (table : Table σ) (n : Node) : Prop :=
  ∀ keys, n.childKeys = .ok keys → ∃ k, k + 2 ≤ 8 * n.toTree.size ∧
    ∀ fuel key index outer p, Ready outer key index n.id →
      runFrames table (fuel + k) ⟨n, key, index, keys, none⟩ outer p =
        close table fuel key index outer (visit table n ⟨outer.head?.map (·.node), key, index⟩ p)

lemma unwind_congr {f g : Frame} (hn : g.node = f.node) (hk : g.key = f.key)
    (hi : g.index = f.index) (outer : List Frame) : g.unwind outer = f.unwind outer := by
  cases outer with
  | nil => simp [unwind, hn]
  | cons o rest => simp [unwind, settle, hn, hk, hi]

lemma runFrames_stay {f g : Frame} (h : f.advance = .ok (.stay g)) (fuel : Nat)
    (outer : List Frame) (p : Progress σ) :
    runFrames table (fuel + 1) f outer p = runFrames table fuel g outer p := by
  rw [runFrames, h]

lemma Agrees.enter {c : Node} (h : Agrees table c) :
    ∃ k, k + 1 ≤ 8 * c.toTree.size ∧ ∀ fuel key index (f g : Frame) outer p,
      f.advance = moveInto c.toTree key index g → g.node = f.node → g.key = f.key →
      g.index = f.index → (∀ s ∈ g.scan, s.orphan = none) →
      ⟨key, index, c⟩ ∈ fieldSlots key (f.node.get key) →
      runFrames table (fuel + k) f outer p = proceed table fuel g outer
        ⟨(visitSlot table ⟨key, index, c⟩ f.node p).outcome,
          fill f.node key index (visitSlot table ⟨key, index, c⟩ f.node p).node,
          (visitSlot table ⟨key, index, c⟩ f.node p).progress⟩ := by
  cases hc : c.childKeys with
  | error e =>
    refine ⟨1, ?_, fun fuel key index f g outer p hadv hn hk hi _ hs => ?_⟩
    · have := one_le_size c.toTree
      omega
    · have hstart : f.advance = .error e := by
        rw [hadv]
        simp [moveInto, node?_toTree, start, hc]
      have hfill := fill_self (s := ⟨key, index, c⟩) hs
      rw [runFrames, hstart, visitSlot, visit_of_error hc]
      simp only [proceed, hfill]
      rw [unwind_congr (f := f) (g := { g with node := f.node }) rfl hk hi]
  | ok keys =>
    obtain ⟨k, hk, hrun⟩ := h keys hc
    refine ⟨k + 1, by omega, fun fuel key index f g outer p hadv hn hgk hgi hgo hs => ?_⟩
    have hstart : f.advance = .ok (.enter ⟨c, key, index, keys, none⟩ g) := by
      rw [hadv]
      simp [moveInto, node?_toTree, start, hc]
    have hready : Ready (g :: outer) key index c.id := by
      intro o ho
      obtain rfl : g = o := by simpa using ho
      rw [hn]
      exact ⟨holds_of_mem_fieldSlots (s := ⟨key, index, c⟩) hs, hgo⟩
    have := hrun fuel key index (g :: outer) p hready
    rw [← Nat.add_assoc, runFrames, hstart]
    simp only [this, close, head?_cons, map_some, hn]
    rfl

lemma runFrames_items (key : String) (xs : List Tree)
    (h : ∀ c : Node, c.toTree ∈ xs → Agrees table c) :
    ∃ k, k ≤ 8 * sizeItems xs + 1 ∧ ∀ fuel fk fi ks i ys (m : Node) outer p,
      m.get key = .list ys → ys.drop i = xs →
      runFrames table (fuel + k) ⟨m, fk, fi, ks, some ⟨key, i, ys.length, none⟩⟩ outer p =
        proceed table fuel ⟨m, fk, fi, ks, none⟩ outer
          (sweep (visitSlot table) (itemSlots key i xs) m p) := by
  induction xs with
  | nil =>
    refine ⟨1, by omega, fun fuel fk fi ks i ys m outer p hm hd => ?_⟩
    have hi : ¬i < ys.length := by simpa using hd
    rw [runFrames_stay (g := ⟨m, fk, fi, ks, none⟩) (by simp [advance, hi])]
    rfl
  | cons x xs ih =>
    obtain ⟨k, hk, hrun⟩ := ih fun c hc => h c (by simp [hc])
    have hcons {i : Nat} {ys : List Tree} (hd : ys.drop i = x :: xs) :
        i < ys.length ∧ ys[i]? = some x ∧ ys.drop (i + 1) = xs := by
      have hi : i < ys.length := by
        have := congrArg List.length hd
        simp at this
        omega
      refine ⟨hi, ?_, ?_⟩
      · rw [← head?_drop, hd]
        rfl
      · rw [← tail_drop, hd]
        rfl
    have hadv {fk fi ks i ys} {m : Node} (hm : m.get key = .list ys) (hd : ys.drop i = x :: xs) :
        advance ⟨m, fk, fi, ks, some ⟨key, i, ys.length, none⟩⟩ =
          moveInto x key (some i) ⟨m, fk, fi, ks, some ⟨key, i + 1, ys.length, none⟩⟩ := by
      obtain ⟨hi, hx, -⟩ := hcons hd
      have hat : at? ys i = .ok x := by rw [at?, hx]
      simp [advance, hi, scanned, hm, hat]
    cases hx : x.node? with
    | none =>
      refine ⟨k + 1, ?_, fun fuel fk fi ks i ys m outer p hm hd => ?_⟩
      · have := one_le_size x
        rw [sizeItems]
        omega
      · rw [← Nat.add_assoc, runFrames_stay (g := ⟨m, fk, fi, ks, some ⟨key, i + 1, ys.length, none⟩⟩)
          (by rw [hadv hm hd, moveInto, hx]; rfl), hrun _ _ _ _ _ _ _ _ _ hm (hcons hd).2.2]
        simp [itemSlots, hx]
    | some c =>
      obtain rfl := toTree_of_node? hx
      obtain ⟨j, hj, henter⟩ := (h c (by simp)).enter
      refine ⟨k + j, ?_, fun fuel fk fi ks i ys m outer p hm hd => ?_⟩
      · rw [sizeItems]
        omega
      · obtain ⟨hi, hget, hdrop⟩ := hcons hd
        have hmem : ⟨key, some i, c⟩ ∈ fieldSlots key (m.get key) :=
          mem_fieldSlots.2 ⟨rfl, .inr ⟨ys, i, hm, hget, rfl⟩⟩
        rw [← Nat.add_assoc, henter _ key (some i) _ _ outer p (hadv hm hd) rfl rfl rfl
          (by simp) hmem]
        simp only [itemSlots, hx, map_some, toList_some, singleton_append, sweep]
        cases ho : (visitSlot table ⟨key, some i, c⟩ m p).outcome with
        | error e =>
          simp only [proceed]
          congr 1
          apply unwind_congr <;> rfl
        | ok _ =>
          have hfill := fill_some (visitSlot table ⟨key, some i, c⟩ m p).node hm hi
          have := hrun fuel fk fi ks (i + 1)
            (ys.set i (visitSlot table ⟨key, some i, c⟩ m p).node.toTree)
            (fill m key (some i) (visitSlot table ⟨key, some i, c⟩ m p).node) outer
            (visitSlot table ⟨key, some i, c⟩ m p).progress (by rw [hfill]; simp)
            (by rw [drop_set_of_lt (by omega)]; exact hdrop)
          rw [length_set] at this
          simpa [proceed] using this

lemma sweep_append (f : Slot → Node → Progress σ → Result σ) (ss ts : List Slot) (n : Node)
    (p : Progress σ) : sweep f (ss ++ ts) n p =
      match (sweep f ss n p).outcome with
      | .error _ => sweep f ss n p
      | .ok _ => sweep f ts (sweep f ss n p).node (sweep f ss n p).progress := by
  induction ss generalizing n p with
  | nil => rfl
  | cons s ss ih =>
    rw [cons_append, sweep, sweep]
    cases (f s n p).outcome with
    | error e => rfl
    | ok _ => exact ih _ _

lemma get_sweep_of_ne (f : Slot → Node → Progress σ → Result σ) {other : String} {ss : List Slot}
    (h : ∀ s ∈ ss, other ≠ s.key) (n : Node) (p : Progress σ) :
    (sweep f ss n p).node.get other = n.get other := by
  induction ss generalizing n p with
  | nil => rfl
  | cons s ss ih =>
    have hs := get_fill_of_ne (n := n) (h s (by simp)) s.index (f s n p).node
    rw [sweep]
    cases (f s n p).outcome with
    | error e => exact hs
    | ok _ => exact (ih (fun t ht => h t (by simp [ht])) _ _).trans hs

lemma id_sweep (f : Slot → Node → Progress σ → Result σ) (ss : List Slot) (n : Node)
    (p : Progress σ) : (sweep f ss n p).node.id = n.id := by
  induction ss generalizing n p with
  | nil => rfl
  | cons s ss ih =>
    rw [sweep]
    cases (f s n p).outcome with
    | error e => exact id_fill ..
    | ok _ => exact (ih _ _).trans (id_fill ..)

def absent (n : Node) (keys : List String) : Nat := keys.countP fun k => (n.get? k).isNone

lemma runFrames_field (n : Node) (key : String)
    (h : ∀ s ∈ fieldSlots key (n.get key), Agrees table s.child) :
    ∃ k, k ≤ 8 * ((n.get? key).map Tree.size).getD 0 + absent n [key] ∧
      ∀ fuel fk fi ks (m : Node) outer p, m.get key = n.get key →
      runFrames table (fuel + k) ⟨m, fk, fi, key :: ks, none⟩ outer p =
        proceed table fuel ⟨m, fk, fi, ks, none⟩ outer
          (sweep (visitSlot table) (fieldSlots key (n.get key)) m p) := by
  cases ht : n.get key with
  | list xs =>
    rw [ht] at h
    obtain ⟨k, hk, hrun⟩ := @runFrames_items _ table key xs fun c hc => by
      obtain ⟨i, hi⟩ := mem_iff_getElem?.1 hc
      exact h ⟨key, some i, c⟩ (mem_fieldSlots.2 ⟨rfl, .inr ⟨xs, i, rfl, hi, rfl⟩⟩)
    refine ⟨k + 1, ?_, fun fuel fk fi ks m outer p hm => ?_⟩
    · rw [Node.get?_of_get ht (by simp), map_some, getD_some, Tree.size]
      omega
    · rw [← Nat.add_assoc, runFrames_stay
        (g := ⟨m, fk, fi, ks, some ⟨key, 0, xs.length, none⟩⟩) (by simp [advance, hm])]
      exact hrun fuel fk fi ks 0 xs m outer p hm rfl
  | node id kind fields =>
    rw [ht] at h
    have hmem : ⟨key, none, ⟨id, kind, fields⟩⟩ ∈ fieldSlots key (.node id kind fields) :=
      mem_fieldSlots.2 ⟨rfl, .inl ⟨rfl, rfl⟩⟩
    have hc : Agrees table ⟨id, kind, fields⟩ := h _ hmem
    obtain ⟨k, hk, hrun⟩ := hc.enter
    refine ⟨k, ?_, fun fuel fk fi ks m outer p hm => ?_⟩
    · have hk : k + 1 ≤ 8 * (Tree.node id kind fields).size := hk
      rw [Node.get?_of_get ht (by simp), map_some, getD_some]
      omega
    · rw [hrun fuel key none ⟨m, fk, fi, key :: ks, none⟩ ⟨m, fk, fi, ks, none⟩ outer p
        (by simp [advance, hm, Node.toTree]) rfl rfl rfl (by simp) (by rw [hm]; exact hmem)]
      simp only [fieldSlots, node?, map_some, toList_some, sweep]
      cases (visitSlot table ⟨key, none, ⟨id, kind, fields⟩⟩ m p).outcome <;> rfl
  | _ =>
    refine ⟨1, ?_, fun fuel fk fi ks m outer p hm => ?_⟩
    · cases hg : n.get? key with
      | none => simp [absent, hg]
      | some t =>
        have := one_le_size t
        rw [map_some, getD_some]
        omega
    · rw [runFrames_stay (g := ⟨m, fk, fi, ks, none⟩)
        (by simp [advance, hm, moveInto, node?])]
      rfl

lemma runFrames_keys (n : Node) (ks : List String) (hn : ks.Nodup)
    (h : ∀ s ∈ slotsOf n ks, Agrees table s.child) :
    ∃ k, k ≤ 8 * (ks.map fun k => ((n.get? k).map Tree.size).getD 0).sum + absent n ks ∧
      ∀ fuel fk fi (m : Node) outer p, (∀ key ∈ ks, m.get key = n.get key) →
      runFrames table (fuel + k) ⟨m, fk, fi, ks, none⟩ outer p =
        proceed table fuel ⟨m, fk, fi, [], none⟩ outer
          (sweep (visitSlot table) (slotsOf n ks) m p) := by
  induction ks with
  | nil => exact ⟨0, by omega, fun fuel fk fi m outer p _ => rfl⟩
  | cons key ks ih =>
    obtain ⟨hkey, hn⟩ := nodup_cons.1 hn
    have hsplit : slotsOf n (key :: ks) = fieldSlots key (n.get key) ++ slotsOf n ks := rfl
    rw [hsplit] at h ⊢
    obtain ⟨k, hk, hrun⟩ := ih hn fun s hs => h s (by simp [hs])
    obtain ⟨j, hj, hfield⟩ := runFrames_field n key fun s hs => h s (by simp [hs])
    refine ⟨k + j, ?_, fun fuel fk fi m outer p hm => ?_⟩
    · have : absent n (key :: ks) = absent n [key] + absent n ks := by
        simp [absent, countP_cons, Nat.add_comm]
      rw [map_cons, sum_cons]
      omega
    · rw [← Nat.add_assoc, hfield _ _ _ _ _ _ _ (hm key (by simp)), sweep_append]
      simp only [proceed]
      cases ho : (sweep (visitSlot table) (fieldSlots key (n.get key)) m p).outcome with
      | error e =>
        simp only [ho]
        congr 1
        apply unwind_congr <;> rfl
      | ok _ =>
        refine hrun fuel fk fi _ outer _ fun k hk => ?_
        rw [get_sweep_of_ne, hm k (by simp [hk])]
        intro s hs
        rw [(mem_fieldSlots.1 hs).1]
        rintro rfl
        exact hkey hk

lemma absent_le {n : Node} {keys : List String} (h : n.childKeys = .ok keys)
    (ht : "type" ∉ keys) : absent n keys ≤ 4 := by
  unfold Node.childKeys at h
  cases hk : n.kind.key with
  | error e => simp [hk] at h
  | ok v =>
    simp only [hk, ok_bind] at h
    cases hkind : n.kind? with
    | some k =>
      have hlen : k.children.length ≤ 4 := by cases k <;> decide
      obtain rfl : k.children = keys := by simpa [hkind] using h
      exact Nat.le_trans countP_le_length hlen
    | none =>
      -- the fields of an unknown kind are all there
      obtain rfl : (n.fields.filter fun f => f.2.holdsNode).map (·.1) = keys := by
        simpa [hkind] using h
      rw [absent, countP_eq_zero.2]
      · omega
      · intro name hname
        obtain ⟨f, hf, rfl⟩ := List.mem_map.1 hname
        have hne : f.1 ≠ "type" := fun he => ht (he ▸ hname)
        have := Entries.isSome_get? (mem_filter.1 hf).1
        simpa [Node.get?, hne, isSome_iff_ne_none] using this

def Table.Confined (table : Table σ) : Prop := ∀ e ∈ table, ∀ r ∈ e.2, Visit.Confined r

lemma Confined.applyRules {rules : List (Rule σ)} (h : ∀ r ∈ rules, Confined r) :
    Confined (applyRules rules) := by
  induction rules with
  | nil => exact pure ()
  | cons r rules ih =>
    refine (h r (by simp)).bind fun _ => getSite.bind fun s => ?_
    exact ite (pure ()) (ih fun r hr => h r (by simp [hr]))

lemma Table.Confined.rulesFor (h : table.Confined) {n : Node} {rules : List (Rule σ)}
    (hr : rulesFor table n = .ok rules) : ∀ r ∈ rules, Visit.Confined r := by
  have hget (kind : String) : ∀ r ∈ (Entries.get? kind table).getD [], Visit.Confined r := by
    cases hg : Entries.get? kind table with
    | none => simp
    | some rs => exact h (kind, rs) (Entries.mem_of_get? hg)
  unfold Visit.rulesFor at hr
  cases hk : n.kind.key with
  | error e => simp [hk] at hr
  | ok v =>
    simp only [hk, ok_bind] at hr
    split at hr
    · obtain rfl := Except.ok.inj hr
      exact hget _
    · obtain rfl := Except.ok.inj hr
      simp

lemma receive_of_stays {o : Frame} {key : String} {index : Option Nat} {m : Node} {t : Site}
    (ho : ∀ s ∈ o.scan, s.orphan = none)
    (h : Site.Stays ⟨m, some o.node, key, index, none, false⟩ t) :
    o.receive t = { o with node := fill o.node key index t.node } := by
  obtain ⟨r, hr, hput⟩ := h.parent o.node rfl
  have hplaced := h.placed r hr
  have hnode : Site.settle (t.parent.getD o.node) t.key t.index t.node =
      fill o.node key index t.node := by
    obtain ⟨q, hq⟩ := put_of_holds hplaced t.node.toTree
    rw [hr, getD_some, settle_of_holds hplaced]
    rw [h.key, h.index] at hq ⊢
    rw [fill, hq, fill, ← hput, hq]
  have hscan : (o.scan.map fun s => { s with orphan := t.orphan }) = o.scan := by
    cases hs : o.scan with
    | none => rfl
    | some s =>
      have hs := ho s (by simp [hs])
      have ht : t.orphan = none := h.orphan
      simp [ht, ← hs]
  rw [receive, hnode, hscan]

lemma orphan_of_ready {o : Frame} (h : ∀ s ∈ o.scan, s.orphan = none) :
    (o.scan.bind fun s => s.orphan) = none := by
  cases hs : o.scan with
  | none => rfl
  | some s => exact h s (by simp [hs])

lemma runFrames_leave (hc : table.Confined) {fuel : Nat} {key : String} {index : Option Nat}
    {outer : List Frame} {m : Node} (p : Progress σ) (hr : Ready outer key index m.id) :
    runFrames table (fuel + 1) ⟨m, key, index, [], none⟩ outer p =
      close table fuel key index outer
        (finish table ⟨outer.head?.map (·.node), key, index⟩ m p) := by
  have hadv : advance ⟨m, key, index, [], none⟩ = .ok .leave := rfl
  rw [runFrames, hadv, finish]
  cases hrules : rulesFor table m with
  | error e =>
    cases outer with
    | nil => rfl
    | cons o rest =>
      have hs := settle_of_holds (hr o (by simp)).1
      simp [close, proceed, unwind, settle, hs]
  | ok rules =>
    cases outer with
    | nil => rfl
    | cons o rest =>
      obtain ⟨hholds, horphan⟩ := hr o (by simp)
      have hsite : site ⟨m, key, index, [], none⟩ (some o) =
          ⟨m, some o.node, key, index, none, false⟩ := by
        simp [site, orphan_of_ready horphan]
      have hstays := Confined.applyRules (hc.rulesFor hrules)
        ⟨⟨m, some o.node, key, index, none, false⟩, p.next, p.notes, p.state⟩
        (fun q hq => by simpa [← Option.some.inj hq] using hholds)
      have hreceive := receive_of_stays horphan hstays
      simp only [head?_cons, hsite, map_some, close, proceed]
      generalize applyRules rules ⟨⟨m, some o.node, key, index, none, false⟩, p.next, p.notes,
        p.state⟩ = r at hreceive ⊢
      obtain ⟨outcome, c⟩ := r
      cases outcome <;> simp [hreceive]

theorem agrees_of_confined (hc : table.Confined) (n : Node) (hn : Lawful n) : Agrees table n := by
  induction hs : n.toTree.size using Nat.strongRecOn generalizing n with
  | ind size ih =>
    intro keys hkeys
    obtain ⟨hnodup, htype⟩ := hn n .refl keys hkeys
    obtain ⟨k, hk, hrun⟩ := @runFrames_keys _ table n keys hnodup fun s hmem => by
      refine ih _ (hs ▸ size_child_lt hmem) s.child (hn.child ?_) rfl
      rwa [slots_of_childKeys hkeys]
    refine ⟨k + 1, ?_, fun fuel key index outer p hr => ?_⟩
    · have := n.sum_size_le keys hnodup htype
      have := absent_le hkeys htype
      omega
    · rw [show fuel + (k + 1) = fuel + 1 + k by omega, hrun _ _ _ n outer p fun _ _ => rfl,
        visit_of_childKeys hkeys]
      have hid := id_sweep (visitSlot table) (slotsOf n keys) n p
      simp only [proceed]
      cases (sweep (visitSlot table) (slotsOf n keys) n p).outcome with
      | error e =>
        cases outer with
        | nil => rfl
        | cons o rest =>
          have hholds := (hr o (by simp)).1
          rw [← hid] at hholds
          simp [close, proceed, unwind, settle, settle_of_holds hholds]
      | ok _ => exact runFrames_leave hc _ (hid.symm ▸ hr)

theorem runWith_eq_visit (hc : table.Confined) {root : Node} (h : Lawful root) (more : Nat)
    (p : Progress σ) : runWith more table root p = ⟨(visit table root ⟨none, "", none⟩ p).outcome,
      (visit table root ⟨none, "", none⟩ p).node.toTree,
      (visit table root ⟨none, "", none⟩ p).progress⟩ := by
  cases hk : root.childKeys with
  | error e => simp [runWith, start, hk, visit_of_error hk]
  | ok keys =>
    obtain ⟨k, hle, hrun⟩ := agrees_of_confined hc root h keys hk
    have hfuel : stepBound root.toTree + more = (stepBound root.toTree + more - k) + k := by
      rw [stepBound]
      omega
    have := hrun (stepBound root.toTree + more - k) "" none [] p (by simp [Ready])
    simp only [runWith, start, hk, ok_bind, pure_ok]
    rw [hfuel, this]
    rfl

end Overload.Visit
