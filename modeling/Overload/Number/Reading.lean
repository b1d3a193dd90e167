import Overload.Number.Basic
import Overload.Text.Blank
import Overload.Text.Digit

/-!
Numbers read from text: blanks around are dropped, the empty text is zero, and what is neither an
infinity, nor a radix literal, nor a decimal is NaN.
-/

namespace Overload.Num

open Number Text

structure Scan where
  negative : Bool
  whole : List Char
  fraction : List Char
  exponent : Int

def takeSign : List Char → Bool × List Char
  | '-' :: cs => (true, cs)
  | '+' :: cs => (false, cs)
  | cs => (false, cs)

def takeDigits (cs : List Char) : List Char × List Char :=
  (cs.takeWhile isDecimal, cs.dropWhile isDecimal)

def scanExponent? : List Char → Option Int
  | [] => some 0
  | c :: cs =>
    if c = 'e' ∨ c = 'E' then
      let (negative, rest) := takeSign cs
      let (digits, rest) := takeDigits rest
      if digits.isEmpty || !rest.isEmpty then none
      else (digitsValue? digits).map fun n => if negative then -(n : Int) else n
    else none

def scan? (cs : List Char) : Option Scan :=
  let (negative, rest) := takeSign cs
  let (whole, rest) := takeDigits rest
  let (fraction, rest) := match rest with
    | '.' :: more => takeDigits more
    | _ => ([], rest)
  if whole.isEmpty && fraction.isEmpty then none
  else (scanExponent? rest).map fun e => ⟨negative, whole, fraction, e⟩

def ofDecimal (negative : Bool) (n : Nat) (e : Int) : Float :=
  let size := (decimalLength n : Int) + e
  if n = 0 ∨ size < -330 then signed negative 0
  else if 320 < size then signed negative infinityBits
  else ofRatio negative (n * Nat.pow 10 e.toNat) (Nat.pow 10 (-e).toNat)

def Scan.value (s : Scan) : Float :=
  ofDecimal s.negative ((digitsValue? (s.whole ++ s.fraction)).getD 0)
    (s.exponent - s.fraction.length)

def hexValue? (c : Char) : Option Nat :=
  if '0' ≤ c ∧ c ≤ '9' then some (c.toNat - 48)
  else if 'a' ≤ c ∧ c ≤ 'f' then some (c.toNat - 87)
  else if 'A' ≤ c ∧ c ≤ 'F' then some (c.toNat - 55)
  else none

def radix? (c : Char) : Option Nat :=
  if c = 'x' ∨ c = 'X' then some 16
  else if c = 'o' ∨ c = 'O' then some 8
  else if c = 'b' ∨ c = 'B' then some 2
  else none

def radixDigit? (radix : Nat) (c : Char) : Option Nat :=
  (hexValue? c).filter (· < radix)

def radixValue? (radix : Nat) (cs : List Char) : Option Nat :=
  cs.foldlM (fun n c => (radixDigit? radix c).map (radix * n + ·)) 0

def radixLiteral? : List Char → Option (Nat × List Char)
  | '0' :: c :: d :: ds => do
    let r ← radix? c
    if (d :: ds).all fun c => (hexValue? c).isSome then return (r, d :: ds) else none
  | _ => none

def ofChars (cs : List Char) : Num :=
  if cs = [] then .int 0
  else if cs = "Infinity".toList ∨ cs = "+Infinity".toList then infinity false
  else if cs = "-Infinity".toList then infinity true
  else match radixLiteral? cs with
    | some (radix, digits) =>
      match radixValue? radix digits with
      | some n => .int n
      | none => nan
    | none =>
      match scan? cs with
      | some s => ofFloat s.value
      | none => nan

def ofText (s : String) : Num := ofChars (trim s.toList)

end Overload.Num
