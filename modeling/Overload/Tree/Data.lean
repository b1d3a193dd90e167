import Overload.Entries
import Overload.Number.Basic
import Overload.Text.Quoted

/-! Plain data: the values that a parser hands over, with object entries in their order. -/

namespace Overload

inductive Data where
  | null
  | undefined
  | bool (b : Bool)
  | num (n : Num)
  | str (s : String)
  | list (items : List Data)
  | object (entries : List (String × Data))
  deriving Inhabited

namespace Data

def number? : Data → Option Num
  | .bool b => some (.int (if b then 1 else 0))
  | .num n => some n
  | _ => none

mutual

/-- Equality of values: truth values count as numbers, and objects are equal as maps. -/
def equal : Data → Data → Bool
  | .null, .null => true
  | .undefined, .undefined => true
  | .str s, .str t => s == t
  | .list xs, .list ys => equalItems xs ys
  | .object es, .object fs => es.length == fs.length && equalEntries es fs
  | .bool b, d => ((Data.bool b).number?.bind fun x => d.number?.map x.equal).getD false
  | .num n, d => (d.number?.map n.equal).getD false
  | _, _ => false
termination_by structural d => d

def equalItems : List Data → List Data → Bool
  | [], [] => true
  | x :: xs, y :: ys => x.equal y && equalItems xs ys
  | _, _ => false
termination_by structural xs => xs

def equalEntries : List (String × Data) → List (String × Data) → Bool
  | [], _ => true
  | (name, x) :: rest, fs =>
    (match Entries.get? name fs with
      | some y => x.equal y
      | none => false) && equalEntries rest fs
termination_by structural es => es

end

mutual

def describe : Data → String
  | .null => "None"
  | .undefined => "undefined"
  | .bool b => if b then "True" else "False"
  | .num n => n.describe
  | .str s => Text.quote s
  | .list xs => "[" ++ ", ".intercalate (describeItems xs) ++ "]"
  | .object es => "\x7b" ++ ", ".intercalate (describeEntries es) ++ "\x7d"
termination_by structural d => d

def describeItems : List Data → List String
  | [] => []
  | x :: xs => x.describe :: describeItems xs
termination_by structural xs => xs

def describeEntries : List (String × Data) → List String
  | [] => []
  | (name, x) :: rest => (Text.quote name ++ ": " ++ x.describe) :: describeEntries rest
termination_by structural es => es

end

mutual

def size : Data → Nat
  | .str s => 1 + s.length
  | .list xs => 1 + sizeItems xs
  | .object es => 1 + sizeEntries es
  | _ => 1
termination_by structural d => d

def sizeItems : List Data → Nat
  | [] => 0
  | x :: xs => x.size + sizeItems xs
termination_by structural xs => xs

def sizeEntries : List (String × Data) → Nat
  | [] => 0
  | (name, x) :: rest => 1 + name.length + x.size + sizeEntries rest
termination_by structural es => es

end

end Data

end Overload
