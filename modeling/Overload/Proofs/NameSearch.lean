import Mathlib.Order.Bounds.Basic
import Overload.Proofs.Names

/-! A supply over its whole life. -/

namespace Overload.Supply

open Supply List

variable {s : Supply} {base : String}

inductive Request
  | fresh (base : String)
  | reserve (name : String)

def serve (s : Supply) : Request → Option String × Supply
  | .fresh base => (some (s.fresh base).1, (s.fresh base).2)
  | .reserve name => (none, s.reserve name)

def serveAll (s : Supply) : List Request → List (Option String) × Supply
  | [] => ([], s)
  | r :: rs => ((s.serve r).1 :: ((s.serve r).2.serveAll rs).1, ((s.serve r).2.serveAll rs).2)

/-- The names that stand at the start, are reserved by a request or are the answer to one. -/
def reservedBy (names : List String) (requests : List Request) : Set String :=
  {name | name ∈ names ∨ .reserve name ∈ requests ∨
    some name ∈ ((ofTaken names).serveAll requests).1}

/-- A search that looks at every number from the first one on ends at the second. -/
inductive Seeks (reserved : Set String) (base : String) : Nat → Nat → Prop
  | stop {k : Nat} (free : numbered base k ∉ reserved) : Seeks reserved base k k
  | next {k l : Nat} (held : numbered base k ∈ reserved) (rest : Seeks reserved base (k + 1) l) :
      Seeks reserved base k l

/-- The answers of a supply that keeps nothing but the reserved names: every search starts at
one. -/
inductive Plain : Set String → List Request → List (Option String) → Prop
  | nil {reserved : Set String} : Plain reserved [] []
  | reserve {reserved : Set String} {name : String} {rs : List Request}
      {answers : List (Option String)} (rest : Plain (insert name reserved) rs answers) :
      Plain reserved (.reserve name :: rs) (none :: answers)
  | base {reserved : Set String} {base : String} {rs : List Request}
      {answers : List (Option String)} (free : base ∉ reserved)
      (rest : Plain (insert base reserved) rs answers) :
      Plain reserved (.fresh base :: rs) (some base :: answers)
  | numbered {reserved : Set String} {base : String} {k : Nat} {rs : List Request}
      {answers : List (Option String)} (held : base ∈ reserved) (search : Seeks reserved base 1 k)
      (rest : Plain (insert (numbered base k) reserved) rs answers) :
      Plain reserved (.fresh base :: rs) (some (Supply.numbered base k) :: answers)

lemma seeks_iff_isLeast {reserved : Set String} {k l : Nat} :
    Seeks reserved base k l ↔ IsLeast {i | k ≤ i ∧ numbered base i ∉ reserved} l := by
  constructor
  · intro h
    induction h with
    | stop free => exact ⟨⟨le_rfl, free⟩, fun i hi => hi.1⟩
    | @next k l held _ ih =>
      refine ⟨⟨(Nat.le_succ k).trans ih.1.1, ih.1.2⟩, fun i hi => ih.2 ⟨?_, hi.2⟩⟩
      -- the free number is not the one just found reserved
      refine Nat.lt_of_le_of_ne hi.1 ?_
      rintro rfl
      exact hi.2 held
  · rintro ⟨⟨hkl, hfree⟩, hmin⟩
    induction hd : l - k generalizing k with
    | zero =>
      obtain rfl : k = l := by omega
      exact .stop hfree
    | succ d ih =>
      by_cases hk : numbered base k ∈ reserved
      · refine .next hk (ih (fun i hi => hmin ⟨?_, hi.2⟩) (by omega) (by omega))
        exact (Nat.le_succ k).trans hi.1
      · have := hmin ⟨le_rfl, hk⟩
        omega

def Skips (s : Supply) : Prop :=
  ∀ base i, 1 ≤ i → i ≤ s.counter base → numbered base i ∈ s.taken

lemma skips_ofTaken (names : List String) : (ofTaken names).Skips := by
  intro base i h1 h2
  simp only [counter, ofTaken, lookup_nil, Option.getD_none] at h2
  omega

lemma Skips.reserve (h : s.Skips) (name : String) : (s.reserve name).Skips :=
  fun base i h1 h2 => mem_cons_of_mem _ (h base i h1 h2)

lemma counter_fresh_self {s : Supply} {base : String} (h : s.has base = true) :
    (s.fresh base).2.counter base = seek s.taken base (s.taken.length + 1) (s.counter base + 1) := by
  simp [fresh, h, counter]

lemma counter_fresh_of_free (h : s.has base = false) (other : String) :
    (s.fresh base).2.counter other = s.counter other := by
  rw [fresh_of_free h]
  rfl

lemma counter_fresh_of_ne {other : String} (h : other ≠ base) :
    (s.fresh base).2.counter other = s.counter other := by
  cases hb : s.has base with
  | false => exact counter_fresh_of_free hb other
  | true =>
    have hne : (other == base) = false := by simpa using h
    simp [fresh, hb, counter, lookup_cons, hne]

lemma fresh_of_taken (h : s.has base = true) :
    (s.fresh base).1 =
      numbered base (seek s.taken base (s.taken.length + 1) (s.counter base + 1)) := by
  simp [fresh, h]

lemma Skips.isLeast (h : s.Skips) (base : String) :
    IsLeast {i | 1 ≤ i ∧ numbered base i ∉ s.taken}
      (seek s.taken base (s.taken.length + 1) (s.counter base + 1)) := by
  have hle := le_seek s.taken base (s.taken.length + 1) (s.counter base + 1)
  refine ⟨⟨by omega, seek_free _ _ _⟩, fun i hi => ?_⟩
  by_contra hlt
  rcases Nat.lt_or_ge (s.counter base) i with hc | hc
  · exact hi.2 (by simpa using contains_of_lt_seek hc (not_le.1 hlt))
  · exact hi.2 (h base i hi.1 hc)

lemma Skips.fresh (h : s.Skips) (base : String) : (s.fresh base).2.Skips := by
  intro other i h1 h2
  rw [taken_fresh]
  by_cases hother : other = base
  · subst hother
    cases hb : s.has other with
    | false =>
      rw [counter_fresh_of_free hb] at h2
      exact mem_cons_of_mem _ (h other i h1 h2)
    | true =>
      rw [counter_fresh_self hb] at h2
      rw [fresh_of_taken hb]
      -- the search ended at the new number, and passed over every other one
      rcases Nat.eq_or_lt_of_le h2 with rfl | hlt
      · exact mem_cons_self
      · refine mem_cons_of_mem _ ?_
        by_contra hfree
        exact absurd ((h.isLeast other).2 ⟨h1, hfree⟩) (not_le.2 hlt)
  · rw [counter_fresh_of_ne hother] at h2
    exact mem_cons_of_mem _ (h other i h1 h2)

lemma Skips.serve (h : s.Skips) (r : Request) : (s.serve r).2.Skips := by
  cases r with
  | fresh base => exact h.fresh base
  | reserve name => exact h.reserve name

lemma Skips.serveAll (h : s.Skips) (requests : List Request) : (s.serveAll requests).2.Skips := by
  induction requests generalizing s with
  | nil => exact h
  | cons r rs ih => exact ih (h.serve r)

lemma mem_taken_serve {s : Supply} {r : Request} {name : String} :
    name ∈ (s.serve r).2.taken ↔ name ∈ s.taken ∨ .reserve name = r ∨ some name = (s.serve r).1 := by
  cases r with
  | fresh base => simp [serve, taken_fresh, or_comm]
  | reserve other => simp [serve, Supply.reserve, or_comm]

lemma mem_taken_serveAll {requests : List Request} {name : String} :
    name ∈ (s.serveAll requests).2.taken ↔
      name ∈ s.taken ∨ .reserve name ∈ requests ∨ some name ∈ (s.serveAll requests).1 := by
  induction requests generalizing s with
  | nil => simp [serveAll]
  | cons r rs ih =>
    rw [serveAll, ih, mem_taken_serve]
    simp only [mem_cons]
    tauto

lemma mem_reservedBy {names : List String} {requests : List Request} {name : String} :
    name ∈ reservedBy names requests ↔ name ∈ ((ofTaken names).serveAll requests).2.taken :=
  (mem_taken_serveAll (s := ofTaken names)).symm

lemma plain_cons_iff (h : s.Skips) {r : Request} {rs : List Request}
    {answers : List (Option String)} :
    Plain {name | name ∈ s.taken} (r :: rs) answers ↔
      ∃ rest, answers = (s.serve r).1 :: rest ∧
        Plain {name | name ∈ (s.serve r).2.taken} rs rest := by
  have hinsert (name : String) :
      insert name {other | other ∈ s.taken} = {other | other ∈ name :: s.taken} := by
    ext
    simp
  cases r with
  | reserve name =>
    simp only [serve, Supply.reserve, ← hinsert]
    constructor
    · intro hp
      cases hp with
      | reserve rest => exact ⟨_, rfl, rest⟩
    · rintro ⟨rest, rfl, hp⟩
      exact .reserve hp
  | fresh base =>
    simp only [serve, taken_fresh, ← hinsert]
    cases hb : s.has base with
    | false =>
      have hfree : base ∉ s.taken := by simpa [has] using hb
      rw [fresh_of_free hb]
      constructor
      · intro hp
        cases hp with
        | base _ rest => exact ⟨_, rfl, rest⟩
        | numbered held => exact absurd held hfree
      · rintro ⟨rest, rfl, hp⟩
        exact .base hfree hp
    | true =>
      have hheld : base ∈ s.taken := by simpa [has] using hb
      rw [fresh_of_taken hb]
      constructor
      · intro hp
        cases hp with
        | base free => exact absurd hheld free
        | numbered _ search rest =>
          obtain rfl := (seeks_iff_isLeast.1 search).unique (h.isLeast base)
          exact ⟨_, rfl, rest⟩
      · rintro ⟨rest, rfl, hp⟩
        exact .numbered hheld (seeks_iff_isLeast.2 (h.isLeast base)) hp

lemma plain_iff_serveAll (h : s.Skips) {requests : List Request} {answers : List (Option String)} :
    Plain {name | name ∈ s.taken} requests answers ↔ answers = (s.serveAll requests).1 := by
  induction requests generalizing s answers with
  | nil =>
    constructor
    · intro hp
      cases hp with
      | nil => rfl
    · rintro rfl
      exact .nil
  | cons r rs ih => simp only [plain_cons_iff h, ih (h.serve r), serveAll, exists_eq_right]

/-- The supply agrees with the one that keeps no numbers on every list of requests. After every list
of requests a base gives itself when it is free and otherwise its least free number, the search from
the number kept ends there, the answer is new, and no later request frees it. -/
theorem serveAll_eq_plain_search (names : List String) (before : List Request) (base : String) :
    (∀ answers, Plain {name | name ∈ names} before answers ↔
      answers = ((ofTaken names).serveAll before).1) ∧
    (∀ name, ((ofTaken names).serveAll before).2.has name = true ↔
      name ∈ reservedBy names before) ∧
    (base ∉ reservedBy names before →
      (((ofTaken names).serveAll before).2.fresh base).1 = base) ∧
    (base ∈ reservedBy names before → ∃ k,
      Seeks (reservedBy names before) base
        (((ofTaken names).serveAll before).2.counter base + 1) k ∧
      Seeks (reservedBy names before) base 1 k ∧
      IsLeast {i | 1 ≤ i ∧ numbered base i ∉ reservedBy names before} k ∧
      (((ofTaken names).serveAll before).2.fresh base).1 = numbered base k) ∧
    (((ofTaken names).serveAll before).2.fresh base).1 ∉ reservedBy names before ∧
    ∀ after, ((((ofTaken names).serveAll before).2.fresh base).2.serveAll after).2.has
      (((ofTaken names).serveAll before).2.fresh base).1 = true := by
  set s := ((ofTaken names).serveAll before).2
  have hskips : s.Skips := (skips_ofTaken names).serveAll before
  have hmem : reservedBy names before = {name | name ∈ s.taken} := by
    ext name
    exact mem_reservedBy
  have hhas (name : String) : s.has name = true ↔ name ∈ s.taken := by simp [has]
  rw [hmem]
  refine ⟨fun answers => plain_iff_serveAll (skips_ofTaken names), hhas, fun hfree => ?_,
    fun hheld => ?_, fresh_free s base, fun after => ?_⟩
  · rw [fresh_of_free]
    simpa [has] using hfree
  · have hleast := hskips.isLeast base
    refine ⟨_, ?_, seeks_iff_isLeast.2 hleast, hleast, fresh_of_taken ((hhas base).2 hheld)⟩
    refine seeks_iff_isLeast.2 ⟨⟨le_seek _ _ _ _, hleast.1.2⟩, fun i hi => ?_⟩
    exact hleast.2 ⟨(Nat.le_add_left 1 _).trans hi.1, hi.2⟩
  · simpa [has] using mem_taken_serveAll.2 (.inl (by simpa [has] using has_fresh s base))

end Overload.Supply
