import Overload.Tree.Data

/-! Syntax trees. -/

namespace Overload

inductive Tree where
  | null
  | undefined
  | bool (b : Bool)
  | num (n : Num)
  | str (s : String)
  | list (items : List Tree)
  | object (entries : List (String × Data))
  | node (id : Nat) (kind : Tree) (fields : List (String × Tree))
  deriving Inhabited

structure Node where
  id : Nat
  kind : Tree
  fields : List (String × Tree)
  deriving Inhabited

namespace Node

def toTree (n : Node) : Tree := .node n.id n.kind n.fields

def get? (n : Node) (name : String) : Option Tree :=
  if name = "type" then some n.kind else Entries.get? name n.fields

def get (n : Node) (name : String) : Tree := (n.get? name).getD .null

def set (n : Node) (name : String) (value : Tree) : Node :=
  if name = "type" then { n with kind := value }
  else { n with fields := Entries.set name value n.fields }

def erase (n : Node) (name : String) : Node :=
  { n with fields := Entries.erase name n.fields }

def overwrite (n other : Node) : Node := { n with kind := other.kind, fields := other.fields }

def is (n : Node) (kind : String) : Bool :=
  match n.kind with
  | .str s => s == kind
  | _ => false

theorem get?_type (n : Node) : n.get? "type" = some n.kind := rfl

theorem get?_set_self (n : Node) (name : String) (value : Tree) :
    (n.set name value).get? name = some value := by
  by_cases h : name = "type" <;> simp [get?, set, h]

theorem id_set (n : Node) (name : String) (value : Tree) : (n.set name value).id = n.id := by
  unfold set
  split <;> rfl

end Node

namespace Tree

def node? : Tree → Option Node
  | .node id kind fields => some ⟨id, kind, fields⟩
  | _ => none

def isNode (t : Tree) : Bool := t.node?.isSome

def is (t : Tree) (kind : String) : Bool :=
  match t.node? with
  | some n => n.is kind
  | none => false

def isNull : Tree → Bool
  | .null => true
  | _ => false

mutual

def plain : Data → Tree
  | .null => .null
  | .undefined => .undefined
  | .bool b => .bool b
  | .num n => .num n
  | .str s => .str s
  | .list xs => .list (plainItems xs)
  | .object es => .object es
termination_by structural d => d

def plainItems : List Data → List Tree
  | [] => []
  | x :: xs => plain x :: plainItems xs
termination_by structural xs => xs

end

mutual

/-- Data as a field value: an object with a `type` entry becomes a node, also inside lists. -/
def ofData : Data → Nat → Tree × Nat
  | .object es, next =>
    match Entries.get? "type" es with
    | some kind =>
      let r := ofEntries es (next + 1)
      (.node next (plain kind) r.1, r.2)
    | none => (.object es, next)
  | .list xs, next =>
    let r := ofItems xs next
    (.list r.1, r.2)
  | d, next => (plain d, next)
termination_by structural d => d

def ofItems : List Data → Nat → List Tree × Nat
  | [], next => ([], next)
  | x :: xs, next =>
    let r := ofData x next
    let s := ofItems xs r.2
    (r.1 :: s.1, s.2)
termination_by structural xs => xs

def ofEntries : List (String × Data) → Nat → List (String × Tree) × Nat
  | [], next => ([], next)
  | (name, x) :: rest, next =>
    if name = "type" then ofEntries rest next
    else
      let r := ofData x next
      let s := ofEntries rest r.2
      ((name, r.1) :: s.1, s.2)
termination_by structural es => es

end

mutual

def toData : Tree → Data
  | .null => .null
  | .undefined => .undefined
  | .bool b => .bool b
  | .num n => .num n
  | .str s => .str s
  | .list xs => .list (itemsToData xs)
  | .object es => .object es
  | .node _ kind fields => .object (("type", kind.toData) :: fieldsToData fields)
termination_by structural t => t

def itemsToData : List Tree → List Data
  | [] => []
  | x :: xs => x.toData :: itemsToData xs
termination_by structural xs => xs

def fieldsToData : List (String × Tree) → List (String × Data)
  | [] => []
  | (name, x) :: rest => (name, x.toData) :: fieldsToData rest
termination_by structural fs => fs

end

def number? : Tree → Option Num
  | .bool b => some (.int (if b then 1 else 0))
  | .num n => some n
  | _ => none

mutual

def equal : Tree → Tree → Bool
  | .null, .null => true
  | .undefined, .undefined => true
  | .str s, .str t => s == t
  | .list xs, .list ys => equalItems xs ys
  | .object es, .object fs => (Data.object es).equal (.object fs)
  | .node i k fs, .node j l gs =>
    i == j || k.equal l && fs.length == gs.length && equalFields fs gs
  | .bool b, t => (t.number?.map (Num.int (if b then 1 else 0)).equal).getD false
  | .num n, t => (t.number?.map n.equal).getD false
  | _, _ => false
termination_by structural t => t

def equalItems : List Tree → List Tree → Bool
  | [], [] => true
  | x :: xs, y :: ys => x.equal y && equalItems xs ys
  | _, _ => false
termination_by structural xs => xs

def equalFields : List (String × Tree) → List (String × Tree) → Bool
  | [], _ => true
  | (name, x) :: rest, gs =>
    (match Entries.get? name gs with
      | some y => x.equal y
      | none => false) && equalFields rest gs
termination_by structural fs => fs

end

def positionFields : List String := ["start", "end", "loc", "range"]

mutual

def describe : Tree → String
  | .null => "None"
  | .undefined => "undefined"
  | .bool b => if b then "True" else "False"
  | .num n => n.describe
  | .str s => Text.quote s
  | .list xs => "[" ++ ", ".intercalate (describeItems xs) ++ "]"
  | .object es => (Data.object es).describe
  | .node _ kind fields =>
    "Node(" ++ ", ".intercalate (kind.describe :: describeFields fields) ++ ")"
termination_by structural t => t

def describeItems : List Tree → List String
  | [] => []
  | x :: xs => x.describe :: describeItems xs
termination_by structural xs => xs

def describeFields : List (String × Tree) → List String
  | [] => []
  | (name, x) :: rest =>
    if positionFields.contains name then describeFields rest
    else (name ++ "=" ++ x.describe) :: describeFields rest
termination_by structural fs => fs

end

def shown : Tree → String
  | .str s => s
  | t => t.describe

mutual

def size : Tree → Nat
  | .str s => 1 + s.length
  | .list xs => 1 + sizeItems xs
  | .object es => (Data.object es).size
  | .node _ kind fields => 1 + kind.size + sizeFields fields
  | _ => 1
termination_by structural t => t

def sizeItems : List Tree → Nat
  | [] => 0
  | x :: xs => x.size + sizeItems xs
termination_by structural xs => xs

def sizeFields : List (String × Tree) → Nat
  | [] => 0
  | (_, x) :: rest => x.size + sizeFields rest
termination_by structural fs => fs

end

def truthy : Tree → Bool
  | .null => false
  | .undefined => false
  | .bool b => b
  | .num n => !n.isZero
  | .str s => s != ""
  | .list xs => !xs.isEmpty
  | .object es => !es.isEmpty
  | .node _ _ _ => true

def isKey : Tree → Bool
  | .list _ => false
  | .object _ => false
  | .node _ _ _ => false
  | _ => true

mutual

def update (id : Nat) (change : Node → Node) : Tree → Tree
  | .list xs => .list (updateItems id change xs)
  | .node i kind fields =>
    let n : Node := ⟨i, update id change kind, updateFields id change fields⟩
    if i = id then (change n).toTree else n.toTree
  | t => t
termination_by structural t => t

def updateItems (id : Nat) (change : Node → Node) : List Tree → List Tree
  | [] => []
  | x :: xs => update id change x :: updateItems id change xs
termination_by structural xs => xs

def updateFields (id : Nat) (change : Node → Node) : List (String × Tree) → List (String × Tree)
  | [] => []
  | (name, x) :: rest => (name, update id change x) :: updateFields id change rest
termination_by structural fs => fs

end

def isNodeOf (t kind : Tree) : Bool :=
  match t.node? with
  | some n => kind.isNull || n.kind.equal kind
  | none => false

theorem node?_toTree (n : Node) : n.toTree.node? = some n := rfl

theorem toTree_of_node? {t : Tree} {n : Node} (h : t.node? = some n) : n.toTree = t := by
  cases t <;> simp [node?] at h
  subst h
  rfl

end Tree

end Overload
