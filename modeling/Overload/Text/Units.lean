/-! Texts in UTF-16: code units, their bytes, and the order of texts that goes by them. -/

namespace Overload.Text

def charUnits (c : Char) : List Nat :=
  let n := c.toNat
  if n < 0x10000 then [n]
  else [0xd800 + (n - 0x10000) / 0x400, 0xdc00 + (n - 0x10000) % 0x400]

def units (s : String) : List Nat := s.toList.flatMap charUnits

def unitBytes (u : Nat) : List Nat := [u / 0x100, u % 0x100]

def bytes (s : String) : List Nat := (units s).flatMap unitBytes

def compareUnits : List Nat → List Nat → Ordering
  | [], [] => .eq
  | [], _ :: _ => .lt
  | _ :: _, [] => .gt
  | a :: as, b :: bs => (compare a b).then (compareUnits as bs)

end Overload.Text
