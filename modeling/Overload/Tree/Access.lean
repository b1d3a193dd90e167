import Overload.Fault

/-! Reading trees where a value of the wrong shape is a fault. -/

namespace Overload

def Node.attr (n : Node) (name : String) : Except Fault Tree :=
  match n.get? name with
  | some t => .ok t
  | none => .error .noAttribute

namespace Tree

def asNode (t : Tree) : Except Fault Node :=
  match t.node? with
  | some n => .ok n
  | none => .error .noAttribute

def attr (t : Tree) (name : String) : Except Fault Tree := do (← t.asNode).attr name

def kind (t : Tree) : Except Fault Tree := t.attr "type"

def getD (t : Tree) (name : String) (fallback : Tree) : Except Fault Tree :=
  match t with
  | .node id kind fields => .ok (((Node.mk id kind fields).get? name).getD fallback)
  | .object es => .ok (((Entries.get? name es).map plain).getD fallback)
  | _ => .error .noAttribute

def get (t : Tree) (name : String) : Except Fault Tree := t.getD name .null

def key (t : Tree) : Except Fault Tree := if t.isKey then .ok t else .error .unsuitable

def among (t : Tree) (names : List String) : Except Fault Bool := do
  match ← t.key with
  | .str s => return names.contains s
  | _ => return false

def isText (t : Tree) (s : String) : Bool :=
  match t with
  | .str u => u == s
  | _ => false

def ofChar (c : Char) : Tree := .str (String.singleton c)

def elements : Tree → Except Fault (List Tree)
  | .list xs => .ok xs
  | .str s => .ok (s.toList.map ofChar)
  | .object es => .ok (es.map fun e => .str e.1)
  | _ => .error .unsuitable

def length (t : Tree) : Except Fault Nat := return (← t.elements).length

def at? (xs : List Tree) (i : Nat) : Except Fault Tree :=
  match xs[i]? with
  | some x => .ok x
  | none => .error .outOfRange

def index (t : Tree) (i : Nat) : Except Fault Tree :=
  match t with
  | .list xs => at? xs i
  | .str s => at? (s.toList.map ofChar) i
  | .object _ => .error .noEntry
  | _ => .error .unsuitable

def initial : Tree → Except Fault Tree
  | .list xs => .ok (.list xs.dropLast)
  | .str s => .ok (.str (String.ofList s.toList.dropLast))
  | _ => .error .unsuitable

def entry (t : Tree) (name : String) : Except Fault Tree :=
  match t with
  | .object es =>
    match Entries.get? name es with
    | some d => .ok (plain d)
    | none => .error .noEntry
  | _ => .error .unsuitable

theorem attr_toTree (n : Node) (name : String) : n.toTree.attr name = n.attr name := rfl

end Tree

end Overload
