/-! Finite maps as lists of pairs that keep the order of insertion. -/

namespace Overload.Entries

variable {κ α : Type} [DecidableEq κ]

def get? (name : κ) : List (κ × α) → Option α
  | [] => none
  | (n, v) :: rest => if n = name then some v else get? name rest

def set (name : κ) (value : α) : List (κ × α) → List (κ × α)
  | [] => [(name, value)]
  | (n, v) :: rest => if n = name then (n, value) :: rest else (n, v) :: set name value rest

def erase (name : κ) : List (κ × α) → List (κ × α)
  | [] => []
  | (n, v) :: rest => if n = name then rest else (n, v) :: erase name rest

def has (name : κ) (entries : List (κ × α)) : Bool := (get? name entries).isSome

def ofPairs (pairs : List (κ × α)) : List (κ × α) :=
  pairs.foldl (fun es p => set p.1 p.2 es) []

@[simp] theorem get?_nil (name : κ) : get? name ([] : List (κ × α)) = none := rfl

@[simp] theorem get?_set_self (name : κ) (value : α) (es : List (κ × α)) :
    get? name (set name value es) = some value := by
  induction es with
  | nil => simp [set, get?]
  | cons e rest ih =>
    obtain ⟨n, v⟩ := e
    by_cases h : n = name <;> simp [set, get?, h, ih]

theorem get?_set_of_ne {name other : κ} (h : other ≠ name) (value : α) (es : List (κ × α)) :
    get? other (set name value es) = get? other es := by
  induction es with
  | nil => simp [set, get?, Ne.symm h]
  | cons e rest ih => grind [get?, set]

theorem get?_erase_of_ne {name other : κ} (h : other ≠ name) (es : List (κ × α)) :
    get? other (erase name es) = get? other es := by
  induction es with
  | nil => rfl
  | cons e rest ih => grind [get?, erase]

theorem map_fst_set_of_has {name : κ} {value : α} {es : List (κ × α)}
    (h : (get? name es).isSome) : (set name value es).map (·.1) = es.map (·.1) := by
  induction es with
  | nil => simp at h
  | cons e rest ih =>
    obtain ⟨n, v⟩ := e
    by_cases hn : n = name
    · simp [set, hn]
    · simp only [get?, hn, if_false] at h
      simp [set, hn, ih h]

end Overload.Entries
