/-! A supply of names that collide neither with taken ones nor with each other. -/

namespace Overload

structure Supply where
  taken : List String
  counters : List (String × Nat)
  deriving Inhabited

namespace Supply

def ofTaken (names : List String) : Supply := ⟨names, []⟩

def numbered (base : String) (k : Nat) : String := base ++ toString k

def seek (taken : List String) (base : String) : Nat → Nat → Nat
  | 0, k => k
  | fuel + 1, k => if taken.contains (numbered base k) then seek taken base fuel (k + 1) else k

def counter (s : Supply) (base : String) : Nat := (s.counters.lookup base).getD 0

def has (s : Supply) (name : String) : Bool := s.taken.contains name

def reserve (s : Supply) (name : String) : Supply := { s with taken := name :: s.taken }

/-- The base itself if it is free, otherwise the base with the next number that makes it free. -/
def fresh (s : Supply) (base : String) : String × Supply :=
  if s.has base then
    let k := seek s.taken base (s.taken.length + 1) (s.counter base + 1)
    (numbered base k, ⟨numbered base k :: s.taken, (base, k) :: s.counters⟩)
  else (base, s.reserve base)

theorem le_seek (taken : List String) (base : String) (fuel k : Nat) :
    k ≤ seek taken base fuel k := by
  induction fuel generalizing k with
  | zero => exact Nat.le_refl k
  | succ fuel ih =>
    rw [seek]
    split
    · exact Nat.le_of_succ_le (ih (k + 1))
    · exact Nat.le_refl k

theorem contains_of_lt_seek {taken : List String} {base : String} {fuel k i : Nat}
    (hk : k ≤ i) (hi : i < seek taken base fuel k) : taken.contains (numbered base i) = true := by
  induction fuel generalizing k with
  | zero => exact absurd hi (Nat.not_lt.2 hk)
  | succ fuel ih =>
    rw [seek] at hi
    split at hi
    · rename_i h
      rcases Nat.eq_or_lt_of_le hk with rfl | hlt
      · exact h
      · exact ih hlt hi
    · exact absurd hi (Nat.not_lt.2 hk)

theorem fresh_of_free {s : Supply} {base : String} (h : s.has base = false) :
    s.fresh base = (base, s.reserve base) := by
  simp [fresh, h]

theorem has_fresh (s : Supply) (base : String) : (s.fresh base).2.has (s.fresh base).1 = true := by
  unfold fresh
  split <;> simp [has, reserve]

end Supply

end Overload
