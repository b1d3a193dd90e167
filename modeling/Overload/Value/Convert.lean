import Overload.Number.Arithmetic
import Overload.Number.Reading
import Overload.Value.Attribute

/-! Conversions between values: truth, primitives, numbers, texts and machine integers. -/

namespace Overload

def inRange {α : Type} : Option α → Except Fault α
  | some a => .ok a
  | none => .error .tooLarge

namespace Value

def typeof : Value → String
  | .undefined => "undefined"
  | .null => "object"
  | .bool _ => "boolean"
  | .num _ => "number"
  | .str _ => "string"
  | v => if v.isCallable then "function" else "object"

def truthy : Value → Except Fault Bool
  | .undefined | .null => .ok false
  | .bool b => .ok b
  | .num n => if n.isZero then .ok false else inRange ((n.isNaN?).map (!·))
  | .str s => .ok (s != "")
  | _ => .ok true

mutual

def describe : Value → String
  | .undefined => "undefined"
  | .null => "None"
  | .bool b => if b then "True" else "False"
  | .num n => n.describe
  | .str s => s.quote
  | .list _ xs => "[" ++ ", ".intercalate (describeItems xs) ++ "]"
  | .tuple _ [x] => "(" ++ describe x ++ ",)"
  | .tuple _ xs => "(" ++ ", ".intercalate (describeItems xs) ++ ")"
  | .dict _ es => "\x7b" ++ ", ".intercalate (describeEntries es) ++ "\x7d"
  | .function _ _ _ _ => "<function>"
  | .type c => "<class '" ++ c.name ++ "'>"
  | .object _ c _ _ => "<" ++ c.name ++ " object>"
termination_by structural v => v

def describeItems : List Value → List String
  | [] => []
  | x :: xs => describe x :: describeItems xs
termination_by structural xs => xs

def describeEntries : List (Value × Value) → List String
  | [] => []
  | (k, v) :: es => (describe k ++ ": " ++ describe v) :: describeEntries es
termination_by structural es => es

end

mutual

def isDescribable : Value → Bool
  | .num n => n.isWritable
  | .list _ xs => areDescribable xs
  | .tuple _ xs => areDescribable xs
  | .dict _ es => entriesDescribable es
  | _ => true
termination_by structural v => v

def areDescribable : List Value → Bool
  | [] => true
  | x :: xs => isDescribable x && areDescribable xs
termination_by structural xs => xs

def entriesDescribable : List (Value × Value) → Bool
  | [] => true
  | (k, v) :: es => isDescribable k && isDescribable v && entriesDescribable es
termination_by structural es => es

end

def nameText : Value → Spelling
  | .str s => s
  | v => v.describe

def functionText (v : Value) : Spelling :=
  ("function " : Spelling) ++ ((v.name?).map nameText).getD "" ++ "() \x7b [native code] \x7d"

def isNameable (v : Value) : Bool := !v.isCallable || v.name?.all isDescribable

def objectText (v : Value) : Spelling :=
  if v.isCallable then functionText v else "[object Object]"

mutual

def text : Value → Spelling
  | .undefined => "undefined"
  | .null => "null"
  | .bool b => if b then "true" else "false"
  | .num n => n.text
  | .str s => s
  | .list _ xs => Spelling.join "," (itemTexts xs)
  | .tuple _ xs => Spelling.join "," (itemTexts xs)
  | .dict r es => objectText (.dict r es)
  | .function r n p c => objectText (.function r n p c)
  | .type c => objectText (.type c)
  | .object r c es as => objectText (.object r c es as)
termination_by structural v => v

def itemTexts : List Value → List Spelling
  | [] => []
  | .undefined :: xs => "" :: itemTexts xs
  | .null :: xs => "" :: itemTexts xs
  | x :: xs => text x :: itemTexts xs
termination_by structural xs => xs

end

mutual

/-- Whether no numeral in the text of a value is too long to be written. -/
def isWritable : Value → Bool
  | .num n => n.isWritable
  | .list _ xs => areWritable xs
  | .tuple _ xs => areWritable xs
  | .function r n p c => isNameable (.function r n p c)
  | .type c => isNameable (.type c)
  | .object r c es as => isNameable (.object r c es as)
  | _ => true
termination_by structural v => v

def areWritable : List Value → Bool
  | [] => true
  | x :: xs => isWritable x && areWritable xs
termination_by structural xs => xs

end

def write (v : Value) : Except Fault Spelling :=
  if v.isWritable then .ok v.text else .error .tooLong

def primitive (v : Value) : Value := if v.isPrimitive then v else .str v.text

def toPrimitive (v : Value) : Except Fault Value :=
  if v.isPrimitive || v.isWritable then .ok v.primitive else .error .tooLong

theorem toPrimitive_of_isPrimitive {v : Value} (h : v.isPrimitive = true) :
    v.toPrimitive = .ok v := by
  simp [toPrimitive, primitive, h]

def number : Value → Num
  | .undefined => Num.nan
  | .null => .int 0
  | .bool b => .int (if b then 1 else 0)
  | .num n => n
  | v => (v.text.string?.map Num.ofText).getD Num.nan

def int32 (v : Value) : Int := Num.wrap32 v.number.truncate

def uint32 (v : Value) : Int := v.int32 % 0x100000000

end Value

end Overload
