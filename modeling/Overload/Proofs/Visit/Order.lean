import Overload.Proofs.Tree.Numbering
import Overload.Proofs.Visit.Frames
import Overload.Proofs.Visit.Sweep

/-! The order of a visit. -/

namespace Overload.Visit

open Entries List Result Site

variable {n : Node} {ss : List Slot}

variable {σ : Type} {table : Table σ} {kinds : List String}

def beside {α : Type} (a : Act σ α) : Act (σ × List Site) α := fun c =>
  let r := a ⟨c.site, c.next, c.notes, c.state.1⟩
  (r.1, ⟨r.2.site, r.2.next, r.2.notes, (r.2.state, c.state.2)⟩)

def takeDown : Rule (σ × List Site) := fun c =>
  (.ok (), { c with state := (c.state.1, c.state.2 ++ [c.site]) })

/-- The same rules; those for the given kinds have a rule before them that takes down the site. -/
def Table.watched (kinds : List String) (table : Table σ) : Table (σ × List Site) :=
  (kinds.map fun kind => (kind, takeDown :: ((get? kind table).getD []).map beside)) ++
    table.map fun e => (e.1, e.2.map beside)

def Progress.watching (p : Progress σ) (log : List Site) : Progress (σ × List Site) :=
  ⟨p.next, p.notes, (p.state, log)⟩

def Result.watching (r : Result σ) (log : List Site) : Result (σ × List Site) :=
  ⟨r.outcome, r.node, r.progress.watching log⟩

def Visited.watching (v : Visited σ) (log : List Site) : Visited (σ × List Site) :=
  ⟨v.outcome, v.tree, v.progress.watching log⟩

structure Stop where
  parent : Option Nat
  key : String
  index : Option Nat
  id : Nat
  kind : Tree

def Site.stop (s : Site) : Stop := ⟨s.parent.map (·.id), s.key, s.index, s.node.id, s.node.kind⟩

def watches (kinds : List String) : Tree → Bool
  | .str kind => kinds.contains kind
  | _ => false

lemma mem_slots_size {s : Slot} (h : s ∈ slots n) : s.child.toTree.size < n.toTree.size := by
  unfold slots at h
  split at h
  · exact size_child_lt h
  · simp at h

/-- The nodes that can be reached in their slots: for each child in its turn all that is below it,
then the node itself. -/
def stops (n : Node) (parent : Option Nat) (key : String) (index : Option Nat) : List Stop :=
  ((slots n).attach.flatMap fun s => stops s.1.child (some n.id) s.1.key s.1.index) ++
    [⟨parent, key, index, n.id, n.kind⟩]
termination_by n.toTree.size
decreasing_by exact mem_slots_size s.2

def stopsIn (id : Nat) (ss : List Slot) : List Stop :=
  ss.flatMap fun s => stops s.child (some id) s.key s.index

lemma stops_eq (n : Node) (parent : Option Nat) (key : String) (index : Option Nat) :
    stops n parent key index = stopsIn n.id (slots n) ++ [⟨parent, key, index, n.id, n.kind⟩] := by
  rw [stops, stopsIn]
  conv_rhs => rw [← attach_map_subtype_val (slots n), flatMap_map]

/-! ### Watched rules -/

lemma applyRules_cons (r : Rule σ) (rules : List (Rule σ)) (c : Context σ) :
    applyRules (r :: rules) c =
      match r c with
      | (.ok _, d) => if d.site.replaced then (.ok (), d) else applyRules rules d
      | (.error e, d) => (.error e, d) := by
  rw [applyRules, bind_def]
  rcases r c with ⟨o, d⟩
  cases o with
  | error e => rfl
  | ok u =>
    simp only [bind_def, getSite]
    split <;> rfl

lemma applyRules_beside (rules : List (Rule σ)) (c : Context (σ × List Site)) :
    applyRules (rules.map beside) c = beside (applyRules rules) c := by
  induction rules generalizing c with
  | nil => rfl
  | cons r rules ih =>
    rw [map_cons, applyRules_cons]
    simp only [beside, applyRules_cons]
    generalize r ⟨c.site, c.next, c.notes, c.state.1⟩ = d
    obtain ⟨o, d⟩ := d
    cases o with
    | error e => rfl
    | ok u =>
      simp only [ih, beside]
      split <;> rfl

lemma get?_watched (kinds : List String) (table : Table σ) (kind : String) :
    (get? kind (table.watched kinds)).getD [] =
      (if kinds.contains kind then [takeDown] else []) ++
        ((get? kind table).getD []).map beside := by
  have hrest : get? kind (table.map fun e => (e.1, e.2.map beside)) =
      (get? kind table).map (·.map beside) := by
    induction table with
    | nil => rfl
    | cons e table ih =>
      rw [map_cons, get?, get?]
      split <;> simp [ih]
  unfold Table.watched
  generalize hrs : (get? kind table).getD [] = rs
  have hfirst (f : String → List (Rule (σ × List Site))) (other : Table (σ × List Site)) :
      get? kind (kinds.map (fun k => (k, f k)) ++ other) =
        if kinds.contains kind then some (f kind) else get? kind other := by
    induction kinds with
    | nil => rfl
    | cons k kinds ih =>
      rw [map_cons, cons_append, get?]
      by_cases hk : k = kind
      · simp [hk]
      · simp [hk, ih, Ne.symm hk]
  rw [hfirst, hrest]
  split
  · simp [hrs]
  · rw [← hrs]
    cases get? kind table <;> simp

lemma rulesFor_watched (kinds : List String) (table : Table σ) (n : Node) :
    rulesFor (table.watched kinds) n = (rulesFor table n).map fun rules =>
      (if watches kinds n.kind then [takeDown] else []) ++ rules.map beside := by
  unfold rulesFor Tree.key
  by_cases hk : n.kind.isKey
  · simp only [hk, if_true, ok_bind]
    cases n.kind <;> simp [watches, get?_watched, Except.map]
  · simp only [hk]
    rfl

lemma finish_watched (kinds : List String) (table : Table σ) (place : Place) (n : Node)
    (p : Progress σ) (log : List Site) :
    finish (table.watched kinds) place n (p.watching log) =
      (finish table place n p).watching (log ++ if watches kinds n.kind then
        [⟨n, place.parent, place.key, place.index, none, false⟩] else []) := by
  rw [finish, finish, rulesFor_watched]
  cases hrules : rulesFor table n with
  | error e =>
    have hw : watches kinds n.kind = false := by
      unfold rulesFor Tree.key at hrules
      cases hk : n.kind <;> simp_all [watches, Tree.isKey]
    simp [Except.map, hw, watching]
  | ok rules =>
    simp only [Except.map]
    split
    · simp only [cons_append, nil_append, applyRules_cons, takeDown, applyRules_beside]
      rfl
    · simp only [nil_append, applyRules_beside, append_nil]
      rfl

structure Trail (kinds : List String) (outcome : Except Fault Unit) (expected : List Stop)
    (trail : List Site) : Prop where
  first : trail.map stop <+: expected.filter (watches kinds ·.kind)
  all : outcome = .ok () → trail.map stop = expected.filter (watches kinds ·.kind)
  placed : ∀ s ∈ trail, s.Placed

lemma Trail.append {outcome : Except Fault Unit} {e e' : List Stop} {t t' : List Site}
    (h : Trail kinds (.ok ()) e t) (h' : Trail kinds outcome e' t') :
    Trail kinds outcome (e ++ e') (t ++ t') where
  first := by
    rw [map_append, filter_append, h.all rfl]
    exact (prefix_append_right_inj _).2 h'.first
  all := fun ho => by rw [map_append, filter_append, h.all rfl, h'.all ho]
  placed := fun s hs => (mem_append.1 hs).elim (h.placed s) (h'.placed s)

lemma Trail.of_error {fault : Fault} {e : List Stop} {t : List Site}
    (h : Trail kinds (.error fault) e t) (e' : List Stop) : Trail kinds (.error fault) (e ++ e') t where
  first := by
    rw [filter_append]
    exact h.first.trans (prefix_append ..)
  all := nofun
  placed := h.placed

def Followed (kinds : List String) (table : Table σ) (n : Node) : Prop :=
  ∀ (place : Place) (p : Progress σ) (log : List Site),
    (∀ q, place.parent = some q → holds q place.key place.index n.id = true) →
    ∃ trail, visit (table.watched kinds) n place (p.watching log) =
        (visit table n place p).watching (log ++ trail) ∧
      Trail kinds (visit table n place p).outcome
        (stops n (place.parent.map (·.id)) place.key place.index) trail

lemma sweep_watched (hf : ∀ s ∈ ss, Followed kinds table s.child) (m : Node) (hm : Laid m ss)
    (p : Progress σ) (log : List Site) :
    ∃ trail, sweep (visitSlot (table.watched kinds)) ss m (p.watching log) =
        (sweep (visitSlot table) ss m p).watching (log ++ trail) ∧
      Trail kinds (sweep (visitSlot table) ss m p).outcome (stopsIn m.id ss) trail := by
  induction ss generalizing m p log with
  | nil => exact ⟨[], by simp [sweep, watching], by simp [stopsIn], by simp [stopsIn], by simp⟩
  | cons s rest ih =>
    obtain ⟨t, hvisit, ht⟩ := hf s (by simp) ⟨some m, s.key, s.index⟩ p log fun q hq => by
      obtain rfl := Option.some.inj hq
      exact holds_of_mem_fieldSlots hm.head
    have hslot : visitSlot (table.watched kinds) s m (p.watching log) =
        (visitSlot table s m p).watching (log ++ t) := hvisit
    rw [sweep, sweep, hslot]
    generalize hr : visitSlot table s m p = r
    rw [visitSlot] at hr
    rw [hr] at ht
    simp only [watching]
    cases ho : r.outcome with
    | error e =>
      rw [ho] at ht
      exact ⟨t, rfl, ht.of_error _⟩
    | ok u =>
      rw [ho] at ht
      obtain ⟨t', hsweep, ht'⟩ := ih (fun u hu => hf u (by simp [hu]))
        (fill m s.key s.index r.node) (hm.next _) r.progress (log ++ t)
      rw [id_fill] at ht'
      exact ⟨t ++ t', by rw [← append_assoc]; exact hsweep, ht.append ht'⟩

lemma kind_sweep (f : Slot → Node → Progress σ → Result σ) (h : ∀ s ∈ ss, "type" ≠ s.key) (n : Node)
    (p : Progress σ) : (sweep f ss n p).node.kind = n.kind := by
  have := get_sweep_of_ne f h n p
  simpa [Node.get, Node.get?_type] using this

lemma followed (kinds : List String) (table : Table σ) (hn : Lawful n) :
    Followed kinds table n := by
  induction hs : n.toTree.size using Nat.strongRecOn generalizing n with
  | ind size ih =>
    intro place p log hplace
    cases hk : n.childKeys with
    | error e =>
      rw [visit_of_error hk, visit_of_error hk]
      exact ⟨[], by simp [watching], by simp, nofun, by simp⟩
    | ok keys =>
      have hslots := slots_of_childKeys hk
      obtain ⟨hnodup, htype⟩ := hn n .refl keys hk
      have hchildren : ∀ s ∈ slotsOf n keys, Followed kinds table s.child := fun s hs' =>
        ih _ (hs ▸ size_child_lt hs') (hn.child (hslots ▸ hs')) rfl
      have hlaid := laid_slotsOf (n := n) hnodup htype
      obtain ⟨t, hsweep, ht⟩ := sweep_watched hchildren n hlaid p log
      have hid := id_sweep (visitSlot table) (slotsOf n keys) n p
      have hkind := kind_sweep (visitSlot table) (fun s hs' => (hlaid.plain s hs').symm) n p
      rw [visit_of_childKeys hk, visit_of_childKeys hk, hsweep, stops_eq, hslots]
      generalize sweep (visitSlot table) (slotsOf n keys) n p = r at ht hid hkind
      simp only [watching]
      cases ho : r.outcome with
      | error e =>
        rw [ho] at ht
        exact ⟨t, rfl, ht.of_error _⟩
      | ok u =>
        rw [ho] at ht
        refine ⟨t ++ if watches kinds r.node.kind then
            [⟨r.node, place.parent, place.key, place.index, none, false⟩] else [],
          (finish_watched kinds table place r.node r.progress (log ++ t)).trans
            (by rw [append_assoc]; rfl), ht.append ⟨?_, fun _ => ?_, ?_⟩⟩
        all_goals rw [hkind]
        · split <;> simp_all [stop]
        · split <;> simp_all [stop]
        · intro s hs'
          split at hs'
          · obtain rfl := mem_singleton.1 hs'
            intro q hq
            rw [hid]
            exact hplace q hq
          · simp at hs'

/-! ### The stops of a tree -/

lemma mem_stopsIn {id : Nat} {s : Stop} :
    s ∈ stopsIn id ss ↔ ∃ t ∈ ss, s ∈ stops t.child (some id) t.key t.index :=
  mem_flatMap

lemma sublist_stopsIn {t : Slot} (h : t ∈ ss) (id : Nat) :
    (stops t.child (some id) t.key t.index).Sublist (stopsIn id ss) := by
  rw [stopsIn, flatMap_def]
  exact sublist_flatten_of_mem (mem_map_of_mem h)

lemma stops_of_below {m : Node} (h : Below n m) (parent : Option Nat) (key : String)
    (index : Option Nat) :
    ∃ parent' key' index', (stops m parent' key' index').Sublist (stops n parent key index) := by
  induction h with
  | refl => exact ⟨_, _, _, .refl _⟩
  | @child m t _ ht ih =>
    obtain ⟨parent', key', index', ih⟩ := ih
    refine ⟨some m.id, t.key, t.index, .trans ?_ ih⟩
    rw [stops_eq m]
    exact .trans (sublist_stopsIn ht m.id) (sublist_append_left ..)

lemma below_of_stop {s : Stop} {parent : Option Nat} {key : String} {index : Option Nat}
    (h : s ∈ stops n parent key index) : ∃ m, Below n m ∧ m.id = s.id ∧ m.kind = s.kind := by
  induction hs : n.toTree.size using Nat.strongRecOn generalizing n parent key index with
  | ind size ih =>
    rw [stops_eq, mem_append, mem_stopsIn, mem_singleton] at h
    rcases h with ⟨t, ht, hst⟩ | rfl
    · obtain ⟨m, hm, hid, hkind⟩ := ih _ (hs ▸ mem_slots_size ht) hst rfl
      exact ⟨m, Below.trans (.child .refl ht) hm, hid, hkind⟩
    · exact ⟨n, .refl, rfl, rfl⟩

lemma stop_of_below {m : Node} (h : Below n m) (parent : Option Nat) (key : String)
    (index : Option Nat) : ∃ s ∈ stops n parent key index, s.id = m.id ∧ s.kind = m.kind := by
  obtain ⟨parent', key', index', hm⟩ := stops_of_below h parent key index
  refine ⟨⟨parent', key', index', m.id, m.kind⟩, hm.subset ?_, rfl, rfl⟩
  rw [stops_eq]
  exact mem_append_right _ (by simp)

lemma child_before {m : Node} (h : Below n m) {t : Slot} (ht : t ∈ slots m) (parent : Option Nat)
    (key : String) (index : Option Nat) :
    ∃ s u, [s, u].Sublist (stops n parent key index) ∧
      s.id = t.child.id ∧ s.kind = t.child.kind ∧ u.id = m.id ∧ u.kind = m.kind := by
  obtain ⟨parent', key', index', hm⟩ := stops_of_below h parent key index
  refine ⟨⟨some m.id, t.key, t.index, t.child.id, t.child.kind⟩, ⟨parent', key', index', m.id, m.kind⟩,
    .trans ?_ hm, rfl, rfl, rfl, rfl⟩
  rw [stops_eq m]
  refine Sublist.append (singleton_sublist.2 (mem_stopsIn.2 ⟨t, ht, ?_⟩)) (.refl _)
  rw [stops_eq]
  exact mem_append_right _ (by simp)

lemma pair_sublist_prefix {l l' : List Nat} {a b : Nat} (hp : l <+: l') (hd : l'.Nodup)
    (h : [a, b].Sublist l') (hb : b ∈ l) : [a, b].Sublist l := by
  obtain ⟨rest, rfl⟩ := hp
  obtain ⟨x, y, hxy, hx, hy⟩ := sublist_append_iff.1 h
  rcases eq_nil_or_concat y with rfl | ⟨z, c, rfl⟩
  · rw [hxy, append_nil]
    exact hx
  · have hc : b = c := by
      have := congrArg getLast? hxy
      simpa [← append_assoc] using this
    have hr : b ∈ rest := hy.subset (by simp [hc])
    exact absurd hr ((nodup_append.1 hd).2.2 b hb b · rfl)

/-! ### The run -/

lemma Confined.beside {α : Type} {a : Act σ α} (h : Confined a) : Confined (beside a) :=
  fun c hc => h ⟨c.site, c.next, c.notes, c.state.1⟩ hc

lemma Table.Confined.watched (h : table.Confined) (kinds : List String) :
    (table.watched kinds).Confined := by
  have hrules : ∀ rs : List (Rule σ), (∀ r ∈ rs, Visit.Confined r) →
      ∀ r ∈ rs.map Visit.beside, Visit.Confined r := by
    intro rs hrs r hr
    obtain ⟨r', hr', rfl⟩ := mem_map.1 hr
    exact (hrs r' hr').beside
  intro e he
  rcases mem_append.1 he with he | he
  · obtain ⟨kind, -, rfl⟩ := mem_map.1 he
    intro r hr
    rcases mem_cons.1 hr with rfl | hr
    · exact .of_site fun _ => rfl
    · refine hrules _ (fun r hr => ?_) r hr
      cases hg : get? kind table with
      | none => simp [hg] at hr
      | some rs => exact h _ (mem_of_get? hg) r (by simpa [hg] using hr)
  · obtain ⟨e', he', rfl⟩ := mem_map.1 he
    exact hrules e'.2 (h e' he')

lemma applyRules_append {before : List (Rule σ)} {c d : Context σ}
    (h : applyRules before c = (.ok (), d)) (hd : d.site.replaced = false)
    (after : List (Rule σ)) : applyRules (before ++ after) c = applyRules after d := by
  induction before generalizing c with
  | nil =>
    obtain rfl : c = d := congrArg Prod.snd h
    rfl
  | cons r before ih =>
    rw [applyRules_cons] at h
    rw [cons_append, applyRules_cons]
    generalize r c = x at h ⊢
    obtain ⟨o, e⟩ := x
    cases o with
    | error fault => cases congrArg Prod.fst h
    | ok u =>
      by_cases he : e.site.replaced = true
      · simp only [he, if_true] at h
        obtain rfl : e = d := congrArg Prod.snd h
        simp [hd] at he
      · simp only [he] at h ⊢
        exact ih h

def Result.visited (r : Result σ) : Visited σ := ⟨r.outcome, r.node.toTree, r.progress⟩

/-- A visit is the recursion that works on the children in the order of their slots and then on the
node. Every node of the tree gets its rules once, after its children, while it stands in its slot;
no other node does. The rules after one that has replaced the node are left out. -/
theorem run_is_bottom_up {table : Table σ} (hc : table.Confined) {root : Node} (hl : Lawful root)
    (hd : ((stops root none "" none).map (·.id)).Nodup) (p : Progress σ) :
    run table root p = (visit table root ⟨none, "", none⟩ p).visited ∧
    (∀ kinds : List String, ∃ log : List Site,
      run (table.watched kinds) root (p.watching []) = (run table root p).watching log ∧
      log.map Site.stop <+: (stops root none "" none).filter (watches kinds ·.kind) ∧
      (∀ s ∈ log, s.Placed ∧ ∃ m, Below root m ∧ m.id = s.node.id ∧ m.kind = s.node.kind) ∧
      (log.map (·.node.id)).Nodup ∧
      (∀ m t, Below root m → t ∈ slots m → watches kinds m.kind → watches kinds t.child.kind →
        m.id ∈ log.map (·.node.id) → [t.child.id, m.id].Sublist (log.map (·.node.id))) ∧
      ((run table root p).outcome = .ok () →
        log.map Site.stop = (stops root none "" none).filter (watches kinds ·.kind) ∧
        ∀ m, Below root m → watches kinds m.kind → m.id ∈ log.map (·.node.id))) ∧
    ∀ (before after : List (Rule σ)) (r : Rule σ) (c d e : Context σ),
      applyRules before c = (.ok (), d) → d.site.replaced = false → r d = (.ok (), e) →
      e.site.replaced = true → applyRules (before ++ r :: after) c = (.ok (), e) := by
  have hrun : run table root p = _ := runWith_eq_visit hc hl 0 p
  refine ⟨hrun, fun kinds => ?_, fun before after r c d e hb hr hd he => ?_⟩
  · obtain ⟨log, hlog, htrail⟩ := followed kinds table hl ⟨none, "", none⟩ p [] (by simp)
    have hids : log.map (·.node.id) = (log.map stop).map (·.id) := by
      rw [map_map]
      rfl
    have hprefix : log.map (·.node.id) <+:
        ((stops root none "" none).filter (watches kinds ·.kind)).map (·.id) := by
      rw [hids]
      exact htrail.first.map _
    have hnodup : (((stops root none "" none).filter (watches kinds ·.kind)).map (·.id)).Nodup :=
      hd.sublist (filter_sublist.map _)
    refine ⟨log, ?_, htrail.first, fun s hs => ⟨htrail.placed s hs, ?_⟩,
      hnodup.sublist hprefix.sublist, fun m t hm ht hwm hwt hmem => ?_,
      fun ho => ⟨htrail.all (by rw [hrun] at ho; exact ho), fun m hm hw => ?_⟩⟩
    · have hwatched : run (table.watched kinds) root (p.watching []) = _ :=
        runWith_eq_visit (hc.watched kinds) hl 0 _
      rw [hwatched, hlog, hrun]
      rfl
    · have := htrail.first.subset (mem_map_of_mem hs)
      exact below_of_stop (mem_filter.1 this).1
    · obtain ⟨s, u, hsu, hs, hsk, hu, huk⟩ := child_before hm ht none "" none
      refine pair_sublist_prefix hprefix hnodup ?_ hmem
      rw [← hs, ← hu]
      change Sublist ([s, u].map Stop.id) _
      refine Sublist.map Stop.id ?_
      have := hsu.filter (watches kinds ·.kind)
      rwa [filter_eq_self.2 (by simp [hsk, huk, hwm, hwt])] at this
    · obtain ⟨s, hs, hid, hkind⟩ := stop_of_below hm none "" none
      rw [hrun] at ho
      rw [hids, htrail.all ho, ← hid]
      exact mem_map_of_mem (mem_filter.2 ⟨hs, by rw [hkind, hw]⟩)
  · rw [applyRules_append hb hr, applyRules_cons, hd]
    simp [he]

def leaf (id : Nat) : Node := ⟨id, .str "Leaf", []⟩

def sapling : Node := ⟨1, .str "Tree", [("fruit", (leaf 2).toTree)]⟩

def grove : Node :=
  ⟨0, .str "Grove", [("trees", .list [sapling.toTree, .null, (leaf 3).toTree])]⟩

def mark : Act Nat Unit := do setNode ((← getNode).set "seen" (.bool true))

def graft : Act Nat Unit := do replaceBy (← build (Build.node "Grove" []))

def count : Act Nat Unit := do setState ((← getState) + 1)

def grafting : Table Nat :=
  [("Leaf", [mark, graft, (throw .unsuitable : Act Nat Unit)]), ("Tree", [count]),
    ("Grove", [count])]

lemma stops_grove : stops grove none "" none =
    [⟨some 1, "fruit", none, 2, .str "Leaf"⟩, ⟨some 0, "trees", some 0, 1, .str "Tree"⟩,
      ⟨some 0, "trees", some 2, 3, .str "Leaf"⟩, ⟨none, "", none, 0, .str "Grove"⟩] := by
  have hleaf (id : Nat) (parent : Option Nat) (key : String) (index : Option Nat) :
      stops (leaf id) parent key index = [⟨parent, key, index, id, .str "Leaf"⟩] := by
    rw [stops_eq]
    rfl
  have hsapling : slots sapling = [⟨"fruit", none, leaf 2⟩] := rfl
  have hgrove : slots grove = [⟨"trees", some 0, sapling⟩, ⟨"trees", some 2, leaf 3⟩] := rfl
  rw [stops_eq, hgrove]
  simp only [stopsIn, flatMap_cons, hleaf]
  rw [stops_eq, hsapling]
  simp only [stopsIn, flatMap_cons, hleaf]
  rfl

theorem run_is_bottom_up_grove : grafting.Confined ∧ Lawful grove ∧
    (run grafting grove ⟨4, [], 0⟩).outcome = .ok () ∧
    ∃ log : List Site, run (grafting.watched ["Leaf", "Tree", "Grove"]) grove
        (Progress.watching ⟨4, [], 0⟩ []) = (run grafting grove ⟨4, [], 0⟩).watching log ∧
      log.map (·.node.id) = [2, 1, 3, 0] := by
  have hc : grafting.Confined := by
    simp only [Table.Confined, grafting, forall_mem_cons, not_mem_nil, false_implies,
      implies_true, and_true]
    exact ⟨⟨.edit fun n => Node.id_set .., (Confined.build _).bind fun t => .replaceBy t,
      .throw _⟩, Confined.getState.bind fun _ => .setState _,
      Confined.getState.bind fun _ => .setState _⟩
  have hl : Lawful grove := Tree.Every.lawful (by
    simp [grove, sapling, leaf, Node.toTree, Tree.Every, Tree.EveryField, Tree.EveryItem,
      Tree.Tidy])
  have ho : (run grafting grove ⟨4, [], 0⟩).outcome = .ok () := by
    have : (run grafting grove ⟨4, [], 0⟩).outcome.toBool = true := by decide +kernel
    cases h : (run grafting grove ⟨4, [], 0⟩).outcome with
    | ok u => rfl
    | error e => simp [h, Except.toBool] at this
  obtain ⟨-, hlog, -⟩ := run_is_bottom_up hc hl (by simp [stops_grove]) ⟨4, [], 0⟩
  obtain ⟨log, hrun, -, -, -, -, hall⟩ := hlog ["Leaf", "Tree", "Grove"]
  refine ⟨hc, hl, ho, log, hrun, ?_⟩
  calc log.map (·.node.id) = (log.map stop).map (·.id) := by rw [map_map]; rfl
    _ = [2, 1, 3, 0] := by rw [(hall ho).1, stops_grove]; decide

end Overload.Visit
