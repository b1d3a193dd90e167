import Overload.Text.Quoted
import Overload.Text.Units

/-! Texts as values hold them: characters, and surrogates that stand alone among them. -/

namespace Overload

inductive Point where
  | char (c : Char)
  | surrogate (n : Fin 0x800)
  deriving DecidableEq, Repr

structure Spelling where
  points : List Point
  deriving DecidableEq, Repr

def Point.char? : Point → Option Char
  | .char c => some c
  | .surrogate _ => none

def Point.escape (quote : Char) : Point → List Char
  | .char c => Text.escapeChar quote c
  | .surrogate n => '\\' :: 'u' :: Text.hexDigits 4 (0xd800 + n.val)

namespace Spelling

def ofString (s : String) : Spelling := ⟨s.toList.map .char⟩

instance : Coe String Spelling := ⟨ofString⟩

instance : Append Spelling := ⟨fun s t => ⟨s.points ++ t.points⟩⟩

/-- The text as a string, which has no lone surrogates. -/
def string? (s : Spelling) : Option String := (s.points.mapM Point.char?).map String.ofList

def shown (s : Spelling) : String :=
  String.ofList (s.points.map fun p => p.char?.getD '\ufffd')

def quote (s : Spelling) : String :=
  let q := Text.quoteFor (s.points.filterMap Point.char?)
  String.ofList (q :: s.points.flatMap (Point.escape q) ++ [q])

def join (separator : Spelling) : List Spelling → Spelling
  | [] => ofString ""
  | [s] => s
  | s :: rest => s ++ separator ++ join separator rest

theorem append_left_inj {s t u : Spelling} : s ++ u = t ++ u ↔ s = t := by
  constructor
  · intro h
    have hpoints : s.points ++ u.points = t.points ++ u.points := congrArg points h
    cases s
    cases t
    exact congrArg Spelling.mk (List.append_cancel_right hpoints)
  · exact congrArg (· ++ u)

theorem mapM_char? (cs : List Char) : (cs.map Point.char).mapM Point.char? = some cs := by
  induction cs with
  | nil => rfl
  | cons c cs ih => simp [Point.char?, ih]

theorem map_char_of_mapM {ps : List Point} {cs : List Char} (h : ps.mapM Point.char? = some cs) :
    cs.map Point.char = ps := by
  induction ps generalizing cs with
  | nil =>
    obtain rfl := Option.some.inj h
    rfl
  | cons p ps ih =>
    cases p with
    | char c =>
      obtain ⟨ds, hds, rfl⟩ : ∃ ds, ps.mapM Point.char? = some ds ∧ c :: ds = cs := by
        simpa [Point.char?, Option.bind_eq_some_iff] using h
      rw [List.map_cons, ih hds]
    | surrogate n => simp [Point.char?] at h

@[simp] theorem string?_ofString (s : String) : (ofString s).string? = some s := by
  rw [string?, ofString, mapM_char?, Option.map_some, String.ofList_toList]

theorem string?_eq_some_iff {s : Spelling} {t : String} : s.string? = some t ↔ s = t := by
  constructor
  · intro h
    obtain ⟨cs, hcs, rfl⟩ := Option.map_eq_some_iff.1 h
    rw [ofString, String.toList_ofList, map_char_of_mapM hcs]
  · rintro rfl
    exact string?_ofString t

@[simp] theorem ofString_inj {s t : String} : ofString s = ofString t ↔ s = t := by
  constructor
  · intro h
    simpa using congrArg string? h
  · exact congrArg ofString

end Spelling

end Overload
