import Mathlib.Data.List.Forall2
import Overload.Proofs.Failing
import Overload.Proofs.Tree.Fields
import Overload.Source.Print

/-! The text that parts print. -/

namespace Overload.Source

open List

variable {cs : List Char} {ps : List Part}

inductive Renders : List Part → List Char → Prop
  | nil : Renders [] []
  | text {s : String} {rest : List Part} {cs : List Char} : Renders rest cs →
      Renders (.text s :: rest) (s.toList ++ cs)
  | string {s : String} {rest : List Part} {cs : List Char} : Renders rest cs →
      Renders (.tree (.str s) :: rest) (s.toList ++ cs)
  | node {n : Node} {ps rest : List Part} {cs : List Char} : expand n = .ok ps →
      Renders (ps ++ rest) cs → Renders (.tree n.toTree :: rest) cs

namespace Renders

lemma single (s : String) : Renders [.text s] s.toList := by
  simpa using Renders.text (s := s) .nil

lemma append {qs : List Part} {ds : List Char} (hp : Renders ps cs) (hq : Renders qs ds) :
    Renders (ps ++ qs) (cs ++ ds) := by
  induction hp with
  | nil => exact hq
  | text _ ih => simpa using Renders.text ih
  | string _ ih => simpa using Renders.string ih
  | node he _ ih =>
    rw [append_assoc] at ih
    exact .node he ih

lemma textIf (c : Bool) (s : String) : Renders (textIf c s) (if c then s.toList else []) := by
  cases c with
  | true => exact single s
  | false => exact .nil

lemma tree {n : Node} (he : expand n = .ok ps) (h : Renders ps cs) : Renders [.tree n.toTree] cs :=
  .node he (by rwa [append_nil])

end Renders

def PrintsItem (t : Tree) (cs : List Char) : Prop := ∃ ps, listItem t = .ok ps ∧ Renders ps cs

lemma prints_items {ts : List Tree} {css : List (List Char)}
    (h : Forall₂ PrintsItem ts css) :
    ∃ pss, ts.mapM listItem = .ok pss ∧ pss.length = ts.length ∧
      Renders (pss.intersperse [.text ", "]).flatten (", ".toList.intercalate css) := by
  induction h with
  | nil => exact ⟨[], rfl, rfl, .nil⟩
  | @cons t cs ts css ht hts ih =>
    obtain ⟨ps, hitem, hq⟩ := ht
    obtain ⟨pss, hm, hl, hp⟩ := ih
    refine ⟨ps :: pss, ?_, by simp [hl], ?_⟩
    · rw [mapM_cons, hitem, hm]
      rfl
    · cases hts with
      | nil =>
        obtain rfl := eq_nil_of_length_eq_zero hl
        simpa [intercalate] using hq
      | cons _ _ =>
        obtain ⟨qs, pss, rfl⟩ := exists_cons_of_length_pos (l := pss) (by simp [hl])
        simpa [intercalate] using hq.append (.text (s := ", ") hp)

lemma prints_commaList {ts : List Tree} {css : List (List Char)}
    (h : Forall₂ PrintsItem ts css) :
    ∃ ps, commaList (.list ts) = .ok ps ∧ Renders ps
      (", ".toList.intercalate css ++ if lastIsHole ts then ",".toList else []) := by
  obtain ⟨pss, hm, -, hp⟩ := prints_items h
  refine ⟨_, ?_, hp.append (.textIf (lastIsHole ts) ",")⟩
  simp [commaList, Tree.elements, hm, textIf]

lemma prints_list {ts : List Tree} {css : List (List Char)} (h : Forall₂ PrintsItem ts css)
    (hn : ∀ t ∈ ts, t.isNull = false) :
    ∃ ps, commaList (.list ts) = .ok ps ∧ Renders ps (", ".toList.intercalate css) := by
  have hlast : lastIsHole ts = false := by
    rw [lastIsHole]
    split
    · rename_i t ht
      exact hn t (mem_of_getLast? ht)
    · rfl
  simpa [hlast] using prints_commaList h

lemma renders_of_run {fuel : Nat} {done text : String} (h : run fuel ps done = .ok text) :
    ∃ cs, Renders ps cs ∧ text.toList = done.toList ++ cs := by
  fun_induction run fuel ps done with
  | case1 fuel done =>
    obtain rfl : done = text := by simpa using h
    exact ⟨[], .nil, by simp⟩
  | case2 => simp at h
  | case3 fuel s rest done ih =>
    obtain ⟨cs, hr, ht⟩ := ih h
    exact ⟨s.toList ++ cs, .text hr, by simp [ht]⟩
  | case4 fuel s rest done ih =>
    obtain ⟨cs, hr, ht⟩ := ih h
    exact ⟨s.toList ++ cs, .string hr, by simp [ht]⟩
  | case5 | case6 => simp at h
  | case7 fuel t rest done _ n hn parts he ih =>
    obtain ⟨cs, hr, ht⟩ := ih h
    obtain rfl := Tree.toTree_of_node? hn
    exact ⟨cs, .node he hr, ht⟩

lemma Renders.exists_of_append {qs : List Part} (h : Renders (ps ++ qs) cs) :
    ∃ as bs, cs = as ++ bs ∧ Renders ps as ∧ Renders qs bs := by
  generalize hr : ps ++ qs = rs at h
  induction h generalizing ps with
  | nil =>
    obtain ⟨rfl, rfl⟩ := append_eq_nil_iff.1 hr
    exact ⟨[], [], rfl, .nil, .nil⟩
  | @text s rest cs h ih =>
    rcases append_eq_cons_iff.1 hr with ⟨rfl, rfl⟩ | ⟨ps, rfl, rfl⟩
    · exact ⟨[], _, rfl, .nil, .text h⟩
    · obtain ⟨as, bs, rfl, ha, hb⟩ := ih rfl
      exact ⟨s.toList ++ as, bs, by simp, .text ha, hb⟩
  | @string s rest cs h ih =>
    rcases append_eq_cons_iff.1 hr with ⟨rfl, rfl⟩ | ⟨ps, rfl, rfl⟩
    · exact ⟨[], _, rfl, .nil, .string h⟩
    · obtain ⟨as, bs, rfl, ha, hb⟩ := ih rfl
      exact ⟨s.toList ++ as, bs, by simp, .string ha, hb⟩
  | @node n parts rest cs he h ih =>
    rcases append_eq_cons_iff.1 hr with ⟨rfl, rfl⟩ | ⟨ps, rfl, rfl⟩
    · exact ⟨[], _, rfl, .nil, .node he h⟩
    · obtain ⟨as, bs, rfl, ha, hb⟩ := ih (append_assoc parts ps qs)
      exact ⟨as, bs, rfl, .node he ha, hb⟩

namespace Renders

variable {rest : List Part}

lemma exists_of_cons {p : Part} (h : Renders (p :: rest) cs) :
    ∃ as bs, cs = as ++ bs ∧ Renders [p] as ∧ Renders rest bs :=
  exists_of_append (by simpa using h)

lemma of_text {s : String} (h : Renders (.text s :: rest) cs) :
    ∃ bs, cs = s.toList ++ bs ∧ Renders rest bs := by
  cases h with
  | text h => exact ⟨_, rfl, h⟩

lemma of_string {s : String} (h : Renders (.tree (.str s) :: rest) cs) :
    ∃ bs, cs = s.toList ++ bs ∧ Renders rest bs := by
  generalize ht : Part.tree (.str s) :: rest = ps at h
  cases h with
  | string h =>
    simp only [cons.injEq, Part.tree.injEq, Tree.str.injEq] at ht
    obtain ⟨rfl, rfl⟩ := ht
    exact ⟨_, rfl, h⟩
  | _ => simp [Node.toTree] at ht

lemma of_node {n : Node} (h : Renders (.tree n.toTree :: rest) cs) :
    ∃ ps, expand n = .ok ps ∧ Renders (ps ++ rest) cs := by
  generalize ht : Part.tree n.toTree :: rest = ps at h
  cases h with
  | node he h =>
    simp only [cons.injEq, Part.tree.injEq] at ht
    obtain ⟨hn, rfl⟩ := ht
    obtain rfl := Node.toTree_injective hn
    exact ⟨_, he, h⟩
  | _ => simp [Node.toTree] at ht

lemma unique {ds : List Char} (h : Renders ps cs) (h' : Renders ps ds) : cs = ds := by
  induction h generalizing ds with
  | nil =>
    cases h'
    rfl
  | text _ ih =>
    obtain ⟨bs, rfl, hb⟩ := h'.of_text
    rw [ih hb]
  | string _ ih =>
    obtain ⟨bs, rfl, hb⟩ := h'.of_string
    rw [ih hb]
  | node he _ ih =>
    obtain ⟨qs, he', hb⟩ := h'.of_node
    obtain rfl := Except.ok.inj (he.symm.trans he')
    exact ih hb

end Renders

end Overload.Source
