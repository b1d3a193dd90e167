import Overload.Tree.Fold

/-!
Searches through the children of a tree: the names of its identifiers, and whether a kind of node
occurs.
-/

namespace Overload

namespace Tree

def insertKey (keys : List Tree) (key : Tree) : List Tree :=
  if keys.any fun k => k.equal key then keys else keys ++ [key]

def runAll : List (Unit → Except Fault (List Tree)) → Except Fault (List Tree)
  | [] => .ok []
  | r :: rs => do return (← r ()) ++ (← runAll rs)

def ownName (n : Node) : Except Fault (List Tree) :=
  if n.is "Identifier" then do return [← (← n.attr "name").key] else .ok []

def nodeNames (n : Node) (child : String → Option (Folded (Except Fault (List Tree)))) :
    Except Fault (List Tree) := do
  let own ← ownName n
  return own ++ (← runAll (← n.childResults child))

def names (t : Tree) : Except Fault (List Tree) := do
  return (← t.fold nodeNames fun _ => .error .noAttribute).foldl insertKey []

def functionKinds : List String :=
  ["FunctionDeclaration", "FunctionExpression", "ArrowFunctionExpression"]

def runAny : List (Unit → Except Fault Bool) → Except Fault Bool
  | [] => .ok false
  | r :: rs => do if ← r () then return true else runAny rs

def nodeContains (kind : String) (n : Node)
    (child : String → Option (Folded (Except Fault Bool))) : Except Fault Bool := do
  if n.is kind then return true
  if ← n.kind.among functionKinds then return false
  runAny (← n.childResults child)

def contains (t : Tree) (kind : String) : Except Fault Bool :=
  t.fold (nodeContains kind) fun _ => .error .noAttribute

end Tree

end Overload
