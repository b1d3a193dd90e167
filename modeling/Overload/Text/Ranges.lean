/-! Sets of characters given as lists of code point ranges or by the lengths of their runs. -/

namespace Overload.Text

def inRanges (ranges : List (Nat × Nat)) (n : Nat) : Bool :=
  ranges.any fun r => r.1 ≤ n && n ≤ r.2

/-- The runs are of characters out of the set and in it by turns, from the first character on. -/
def inRuns : List Nat → Nat → Bool
  | out :: run :: rest, n => out ≤ n && (n < out + run || inRuns rest (n - out - run))
  | _, _ => false

end Overload.Text
