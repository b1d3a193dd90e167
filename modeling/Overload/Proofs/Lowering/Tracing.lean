import Overload.Proofs.Lowering.Sealing
import Overload.Proofs.Lowering.Visits

/-! Where the nodes of a lowered program stood in the source. -/

namespace Overload.Lowering

open Visit List Node

variable {least : Nat}

def Traced (least : Nat) (R : List Node → List Node → Prop) (n c : Node) : Prop :=
  ∀ z downs, Path c z downs → z.id < least →
    (∃ y ups, Path n y ups ∧ y.id = z.id ∧ y.kind = z.kind ∧ R ups downs) ∨ Hidden n z.id

structure Faithful (least : Nat) (R : List Node → List Node → Prop) (n c : Node) : Prop where
  traced : Traced least R n c
  donor : Donates donated (Parts (Traced least R n)) c.toTree

section Traced

variable {R S : List Node → List Node → Prop} {n c : Node}

lemma Traced.mono (h : Traced least R n c) (hRS : ∀ ups downs, R ups downs → S ups downs) :
    Traced least S n c := by
  intro z downs hp hz
  refine (h z downs hp hz).imp_left ?_
  rintro ⟨y, ups, hy, hid, hkind, hr⟩
  exact ⟨y, ups, hy, hid, hkind, hRS _ _ hr⟩

lemma Traced.up {s : Visit.Slot} (h : Traced least R s.child c) (hs : s ∈ slots n)
    (hRS : ∀ ups downs, R ups downs → S (ups ++ [n]) downs) : Traced least S n c := by
  intro z downs hp hz
  rcases h z downs hp hz with ⟨y, ups, hy, hid, hkind, hr⟩ | hhidden
  · exact .inl ⟨y, _, .step hs hy, hid, hkind, hRS _ _ hr⟩
  · exact .inr (hhidden.up (held_of_slot hs) (Tree.key_ne_type hs))

lemma Faithful.mono (h : Faithful least R n c) (hRS : ∀ ups downs, R ups downs → S ups downs) :
    Faithful least S n c :=
  ⟨h.traced.mono hRS, fun key hkey u hu => (h.donor key hkey u hu).mono fun _ hd => hd.mono hRS⟩

lemma Faithful.up {s : Visit.Slot} (h : Faithful least R s.child c) (hs : s ∈ slots n)
    (hRS : ∀ ups downs, R ups downs → S (ups ++ [n]) downs) : Faithful least S n c :=
  ⟨h.traced.up hs hRS, fun key hkey u hu => (h.donor key hkey u hu).mono fun _ hd => hd.up hs hRS⟩

lemma faithful_of_hidden {s : Visit.Slot} (hs : Held n s) (hk : s.key ≠ "type")
    (hno : ¬IsChild (n, s.key)) : Faithful least R n s.child := by
  have hhidden {y : Node} {w : List (Node × String)} (hw : Way s.child y w) : Hidden n y.id :=
    ⟨y, _, .step hs hk hw, rfl, _, mem_append_right _ (mem_singleton_self _), hno⟩
  constructor
  · intro z downs hp _
    obtain ⟨w, hw, -⟩ := way_of_path hp
    exact .inr (hhidden hw)
  · intro key hkey u hu d hd z downs hp _
    obtain ⟨w, hw, -⟩ := way_of_path hp
    have hget : s.child.get key = u := by rw [Node.get, attr_eq_ok.1 hu, Option.getD_some]
    obtain ⟨index, hheld⟩ := held_of_part (hget.symm ▸ hd)
    exact .inr (hhidden (.step hheld (ne_type_of_donated hkey) hw))

lemma not_isChild_of_function {n : Node} (hn : n.isFunction = true) {key : String}
    (hkey : key ∈ donated) : ¬IsChild (n, key) := by
  obtain ⟨kind, hmem, hk⟩ := any_eq_true.1 hn
  have hno (K : Kind) (hk : n.is K.name = true) (hall : ∀ key ∈ donated, key ∉ K.children) :
      ¬IsChild (n, key) := by
    rintro ⟨keys, hkeys, hmem⟩
    obtain rfl := Except.ok.inj ((childKeys_of_kind K (is_iff.1 hk)).symm.trans hkeys)
    exact hall key hkey hmem
  simp only [Tree.functionKinds, mem_cons, not_mem_nil, or_false] at hmem
  rcases hmem with rfl | rfl | rfl
  · exact hno .functionDeclaration hk (by decide)
  · exact hno .functionExpression hk (by decide)
  · exact hno .arrowFunctionExpression hk (by decide)

def Blind (least : Nat) (R : List Node → List Node → Prop) : Prop :=
  ∀ ups downs u, least ≤ u.id → R ups downs → R ups (downs ++ [u])

lemma builds_traced (hR : Blind least R) : Builds least (fun _ => True) (Parts (Traced least R n)) := by
  refine builds_of_children (fun _ => trivial) fun u hu _ h z downs hp hz => ?_
  cases hp with
  | here => exact absurd hz (Nat.not_lt.2 hu)
  | step hs hp =>
    refine (h _ hs z _ hp hz).imp_left ?_
    rintro ⟨y, ups, hy, hid, hkind, hr⟩
    exact ⟨y, ups, hy, hid, hkind, hR _ _ _ hu hr⟩

end Traced

section Relations

def Stays (least : Nat) (ups downs : List Node) : Prop := hosts least downs = hosts least ups

def StaysIn (least : Nat) (n : Node) (ups downs : List Node) : Prop :=
  ∃ inner, ups = inner ++ [n] ∧ Stays least inner downs

def Sent (least : Nat) (ups downs : List Node) : Prop :=
  ∃ inner n outer, ups = inner ++ n :: outer ∧ (∃ kind ∈ exportKinds, n.is kind = true) ∧
    Stays least inner downs

variable {n : Node} {ups downs : List Node}

lemma Stays.below (h : Stays least ups downs) : StaysIn least n (ups ++ [n]) downs := ⟨ups, rfl, h⟩

lemma StaysIn.stays (h : StaysIn least n ups downs) (hn : n.isFunction = false) :
    Stays least ups downs := by
  obtain ⟨inner, rfl, hs⟩ := h
  rw [Stays, hosts_append, hosts_singleton hn, append_nil]
  exact hs

lemma StaysIn.sent (h : StaysIn least n ups downs) (hn : ∃ kind ∈ exportKinds, n.is kind = true) :
    Sent least ups downs := by
  obtain ⟨inner, rfl, hs⟩ := h
  exact ⟨inner, n, [], rfl, hn, hs⟩

lemma Sent.up (h : Sent least ups downs) : Sent least (ups ++ [n]) downs := by
  obtain ⟨inner, m, outer, rfl, hm, hs⟩ := h
  exact ⟨inner, m, outer ++ [n], by simp, hm, hs⟩

lemma blind_stays : Blind least (Stays least) := by
  intro ups downs u hu h
  rw [Stays, hosts_append, hosts_of_new (show ∀ v ∈ [u], least ≤ v.id by simpa using hu),
    append_nil]
  exact h

lemma blind_staysIn : Blind least (StaysIn least n) := by
  rintro ups downs u hu ⟨inner, rfl, h⟩
  exact ⟨inner, rfl, blind_stays _ _ u hu h⟩

lemma blind_sent : Blind least (Sent least) := by
  rintro ups downs u hu ⟨inner, m, outer, rfl, hm, h⟩
  exact ⟨inner, m, outer, rfl, hm, blind_stays _ _ u hu h⟩

def Reappears (least : Nat) (ups downs : List Node) : Prop :=
  Stays least ups downs ∨ Sent least ups downs

lemma Reappears.up (h : Reappears least ups downs) {u : Node} (hu : hosts least [u] = []) :
    Reappears least ups (downs ++ [u]) := by
  have hstays {ups : List Node} (h : Stays least ups downs) : Stays least ups (downs ++ [u]) := by
    rw [Stays, hosts_append, hu, append_nil]
    exact h
  refine h.imp hstays ?_
  rintro ⟨inner, m, outer, rfl, hm, h⟩
  exact ⟨inner, m, outer, rfl, hm, hstays h⟩

end Relations

def Sends (least : Nat) (n : Node) (s s' : State) : Prop :=
  ∀ e ∈ s'.exports, e ∈ s.exports ∨ Parts (Traced least (Sent least) n) e.declaration ∧
    Parts (Traced least (Sent least) n) e.exported

def Follows (least : Nat) (n : Node) (p : Progress State) (m : Node) (q : Progress State) : Prop :=
  p.next ≤ q.next ∧ (least ≤ p.next →
    Faithful least (Stays least) n m ∧ Sends least n p.state q.state)

lemma carries_follows : Carries (Follows least) fun p q => p.next ≤ q.next where
  refl _ := Nat.le_refl _
  trans := Nat.le_trans
  of_visit h := h.1

namespace Sends

variable {n : Node} {s t u : State}

lemma of_eq (h : t.exports = s.exports) : Sends least n s t := fun _ he => .inl (h ▸ he)

lemma trans (h : Sends least n s t) (h' : Sends least n t u) : Sends least n s u :=
  fun e he => (h' e he).elim (h e) .inr

lemma up {c : Visit.Slot} (h : Sends least c.child s t) (hc : c ∈ slots n) : Sends least n s t :=
  fun e he => (h e he).imp_right fun ⟨hd, hx⟩ =>
    ⟨hd.mono fun _ h => h.up hc fun _ _ => Sent.up, hx.mono fun _ h => h.up hc fun _ _ => Sent.up⟩

end Sends

section Step

variable {n m m' : Node} {p q q' : Progress State} {place : Place} (hp : least ≤ p.next)
  (hr : Renewed (Follows least) n p m q)
include hp hr

lemma faithful_slot {t : Visit.Slot} (ht : t ∈ slots m) :
    Faithful least (StaysIn least n) n t.child := by
  obtain ⟨s, hs, -, a, b, hf, ha, -⟩ := hr.slot_of_mem carries_follows ht
  exact (hf.2 (Nat.le_trans hp ha)).1.up hs fun _ _ => Stays.below

lemma faithful_field {key : String} (hk : key ≠ "type") :
    Parts (Faithful least (StaysIn least n) n) (m.get key) := by
  obtain ⟨keys, hkeys, -⟩ := hr.keys
  by_cases hkey : key ∈ keys
  · exact parts_of_slots (hr.childKeys.trans hkeys) hkey fun t => faithful_slot hp hr
  · have hget : m.get key = n.get key := by rw [Node.get, hr.get? hkeys hkey, Node.get]
    intro c hc
    rw [hget] at hc
    obtain ⟨index, hheld⟩ := held_of_part hc
    refine faithful_of_hidden hheld hk ?_
    rintro ⟨keys', hkeys', hmem⟩
    obtain rfl := Except.ok.inj (hkeys.symm.trans hkeys')
    exact hkey hmem

lemma traced_field (key : String) (hk : key ≠ "type") :
    Parts (Traced least (StaysIn least n) n) (m.get key) :=
  (faithful_field hp hr hk).mono fun _ h => h.traced

lemma traced_operand {kind : String} {keys : List String} (ho : (kind, keys) ∈ operands)
    (key : String) (hkey : key ∈ keys) : Parts (Traced least (StaysIn least n) n) (m.get key) :=
  traced_field hp hr key (ne_type_of_operand ho hkey)

lemma gives_traced : Gives (fun _ => True) (Parts (Traced least (StaysIn least n) n)) m := by
  refine gives_of_fields (traced_field hp hr) fun xs hs x hx key hkey u hu => ?_
  obtain ⟨c, rfl, -⟩ := attr_toTree_eq_ok hu
  exact (mem_elements hs (faithful_field hp hr (by decide)) hx).donor key hkey u hu

lemma faithful_renewed : Faithful least (Stays least) n m := by
  constructor
  · intro z downs hz hid
    cases hz with
    | here => exact .inl ⟨n, [], .here, hr.id.symm, hr.kind.symm, rfl⟩
    | step ht hz =>
      obtain ⟨s, hs, -, a, b, hf, ha, -⟩ := hr.slot_of_mem carries_follows ht
      have htraced : Traced least (fun ups downs => Stays least ups (downs ++ [m])) n _ :=
        (hf.2 (Nat.le_trans hp ha)).1.traced.up hs fun ups downs h => by
          rw [Stays, hosts_append, hosts_append, hosts_congr hr.id hr.kind, h]
      exact htraced z _ hz hid
  · intro key hkey u hu
    have hne := ne_type_of_donated hkey
    have hget : m.get key = u := by rw [Node.get, attr_eq_ok.1 hu, Option.getD_some]
    subst hget
    cases hn : n.isFunction with
    | false => exact (traced_field hp hr key hne).mono fun _ h => h.mono fun _ _ h => h.stays hn
    | true =>
      obtain ⟨keys, hkeys, -⟩ := hr.keys
      have hno := not_isChild_of_function hn hkey
      have hget : m.get key = n.get key := by
        rw [Node.get, hr.get? hkeys fun hmem => hno ⟨keys, hkeys, hmem⟩, Node.get]
      intro c hc
      rw [hget] at hc
      obtain ⟨index, hheld⟩ := held_of_part hc
      exact (faithful_of_hidden hheld hne hno).traced

lemma sends_renewed : Sends least n p.state q.state := by
  let P (_ : Node) (p : Progress State) (_ : Node) (q : Progress State) : Prop :=
    p.next ≤ q.next ∧ (least ≤ p.next → Sends least n p.state q.state)
  have hP : Carries P fun p q => p.next ≤ q.next ∧ (least ≤ p.next → Sends least n p.state q.state) :=
    ⟨fun _ => ⟨Nat.le_refl _, fun _ => .of_eq rfl⟩, fun h h' => ⟨Nat.le_trans h.1 h'.1, fun hp =>
      (h.2 hp).trans (h'.2 (Nat.le_trans hp h.1))⟩, fun h => h⟩
  have hall : Renewed P n p m q := hr.mono fun s hs p c q h => ⟨h.1, fun hp => (h.2 hp).2.up hs⟩
  exact (hall.progress hP).2 hp

lemma sends_step (hs : Turned m q m' q') : Sends least n q.state q'.state := by
  by_cases hexport : ∃ kind ∈ exportKinds, m.is kind = true
  · obtain ⟨kind, hmem, hk⟩ := hexport
    have hsub : ∀ kind ∈ exportKinds, kind ∈ moduleKinds := by decide
    obtain ⟨k, s, hd, rfl⟩ := hs.declared (hsub kind hmem) hk
    have hn : ∃ kind ∈ exportKinds, n.is kind = true := ⟨kind, hmem, hr.is kind ▸ hk⟩
    have hnext := Nat.le_trans hp (hr.progress carries_follows)
    intro e he
    refine (hd.adds.mem he).imp_right fun hrec => ?_
    obtain ⟨hdecl, hexp⟩ :=
      hrec.parts ((builds_traced blind_staysIn).mono hnext) (gives_traced hp hr)
    exact ⟨hdecl.mono fun _ h => h.mono fun _ _ h => h.sent hn,
      hexp.mono fun _ h => h.mono fun _ _ h => h.sent hn⟩
  · refine .of_eq (hs.exports fun kind hk => ?_)
    simpa using fun his => hexport ⟨kind, hk, his⟩

omit hp in
lemma isFunction_of_dissolved {kind : String} (hk : m.is kind = true) (hmem : kind ∈ dissolved) :
    n.isFunction = false := by
  have hall : ∀ kind ∈ dissolved, kind ∉ Tree.functionKinds := by decide
  exact isFunction_of_kind (hr.kind ▸ is_iff.1 hk) (hall kind hmem)

lemma faithful_step (hs : Turned m q m' q') : Faithful least (Stays least) n m' := by
  have hnext := Nat.le_trans hp (hr.progress carries_follows)
  have hbuilds : Builds q.next _ (Parts (Traced least (StaysIn least n) n)) :=
    (builds_traced blind_staysIn).mono hnext
  have hlack {new : Node} (h : ∀ key ∈ donated, new.get? key = none) :
      Donates donated (Parts (Traced least (Stays least) n)) new.toTree := by
    intro key hkey u hu
    have hget := attr_eq_ok.1 hu
    rw [h key hkey] at hget
    cases hget
  cases hs with
  | still => exact faithful_renewed hp hr
  | @operator kind keys new _ _ ho hk hrew =>
    have hn := isFunction_of_dissolved hr hk (mem_append_left _ (mem_map_of_mem ho))
    obtain ⟨-, -, hfresh⟩ := hrew.fresh
    have htraced := hrew.parts hbuilds (traced_operand hp hr ho) fun _ _ _ _ => trivial
    exact ⟨(parts_toTree.1 htraced).mono fun _ _ h => h.stays hn, hlack hfresh⟩
  | @declaration new _ _ hd =>
    obtain ⟨kind, hmem, hk⟩ := hd.is_module
    have hn := isFunction_of_dissolved hr hk (mem_append_right _ hmem)
    rcases hd.fresh with hget | ⟨-, -, hfresh⟩
    · have hfield := faithful_field hp hr (show "declaration" ≠ "type" by decide)
      rw [Node.get, hget] at hfield
      exact (parts_toTree.1 hfield).mono fun _ _ h => h.stays hn
    · exact ⟨(parts_toTree.1 (hd.parts hbuilds (gives_traced hp hr))).mono fun _ _ h => h.stays hn,
        hlack hfresh⟩

omit hp in
lemma follows_step (hs : Turned m q m' q') (hext : Extends q q') : Follows least n p m' q' :=
  ⟨Nat.le_trans (hr.progress carries_follows) hext.next, fun hp =>
    ⟨faithful_step hp hr hs, (sends_renewed hp hr).trans (sends_step hp hr hs)⟩⟩

end Step

lemma Lowers.follows {n m : Node} {p q : Progress State} (h : Lowers n p m q) :
    Follows least n p m q :=
  h.induction fun _ _ _ _ _ _ _ hr hs hext => follows_step hr hs hext

section Root

variable {root m root' new : Node} {p q q' : Progress State}

def TracedBelow (least : Nat) (root root' : Node) : Prop :=
  ∀ z downs, Path root' z downs → downs ≠ [] → z.id < least →
    (∃ y ups, Path root y ups ∧ y.id = z.id ∧ y.kind = z.kind ∧ Reappears least ups downs) ∨
      Hidden root z.id

lemma tracedBelow_of_slots (hroot : root'.isFunction = false)
    (h : ∀ s ∈ slots root', Traced least (Reappears least) root s.child) :
    TracedBelow least root root' := by
  intro z downs hz hne hid
  cases hz with
  | here => exact absurd rfl hne
  | step hs hz =>
    refine (h _ hs z _ hz hid).imp_left ?_
    rintro ⟨y, ups, hy, hyz, hkind, hr⟩
    exact ⟨y, ups, hy, hyz, hkind, hr.up (hosts_singleton hroot)⟩

lemma tracedBelow_landed (h : Traced least (Stays least) root new) (hf : new.isFunction = false) :
    TracedBelow least root (landed none m new) := by
  refine tracedBelow_of_slots hf fun s hs z downs hz hid => ?_
  refine (h z _ (.step (show s ∈ slots new from hs) hz) hid).imp_left ?_
  rintro ⟨y, ups, hy, hyz, hkind, hr⟩
  rw [Stays, hosts_append, hosts_singleton hf, append_nil] at hr
  exact ⟨y, ups, hy, hyz, hkind, .inl hr⟩

lemma Declared.constant {k j : Nat} {s s' : State} (h : Declared m k s new.toTree j s')
    (hm : ∀ kind ∈ exportKinds, m.is kind = false) : new.is "VariableDeclaration" = true := by
  generalize ht : new.toTree = t at h
  have hno {kind : String} (hk : m.is kind = true) (hmem : kind ∈ exportKinds) : False := by
    rw [hm kind hmem] at hk
    cases hk
  cases h with
  | importAll | importNames =>
    rw [toTree_injective (m := ⟨_, _, _⟩) ht]
    rfl
  | exportFrom hk | exportDeclared hk | exportLocals hk | exportDefaultName hk =>
    exact (hno hk (by decide)).elim
  | exportDefaultValue hk | exportAll hk => exact (hno hk (by decide)).elim

theorem tracedBelow_root (hp : least ≤ p.next) (hstart : p.state.exports = [])
    (hr : Renewed (Follows least) root p m q) (hgood : GoodExports least q.state)
    (hs : Stepped ⟨none, "", none⟩ m q root' q')
    (hroot : ∀ kind ∈ exportKinds, root.is kind = false) : TracedBelow least root root' := by
  have hnext := Nat.le_trans hp (hr.progress carries_follows)
  cases hs with
  | turned ht =>
    have htraced := (faithful_step hp hr ht).traced
    cases ht with
    | still =>
      intro z downs hz _ hid
      refine (htraced z downs hz hid).imp_left ?_
      rintro ⟨y, ups, hy, hyz, hkind, hstays⟩
      exact ⟨y, ups, hy, hyz, hkind, .inl hstays⟩
    | operator _ _ hrew => exact tracedBelow_landed htraced hrew.isFunction
    | declaration hd =>
      have hconstant := hd.constant fun kind hk => (hr.is kind).trans (hroot kind hk)
      exact tracedBelow_landed htraced (isFunction_of_kind (is_iff.1 hconstant) (by decide))
  | program _ hk hc =>
    have hn : root.isFunction = false :=
      isFunction_of_kind (hr.kind ▸ is_iff.1 hk) (by decide)
    obtain ⟨hblock, hslots⟩ := hc.parts (Q := Traced least (Reappears least) root)
      ((traced_field hp hr "body" (by decide)).mono fun _ h => h.mono fun _ _ h => .inl (h.stays hn))
      fun _ t _ ht => by
        refine (returned_parts ht ((builds_traced blind_sent).mono hnext).grows fun e he => ?_).mono
          fun _ h => h.mono fun _ _ h => .inr h
        have hsent := (sends_renewed hp hr e he).resolve_left (by simp [hstart])
        exact exportable_of_differ hsent.1 hsent.2 (hgood e he).differ
    exact tracedBelow_of_slots (isFunction_of_kind (is_iff.1 hblock) (by decide)) hslots

end Root

end Overload.Lowering
