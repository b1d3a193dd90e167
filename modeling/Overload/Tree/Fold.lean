import Overload.Tree.Kind

/-! Folds over trees. -/

namespace Overload

inductive Folded (α : Type) where
  | single (value : Tree) (result : Unit → α)
  | items (xs : List (Tree × (Unit → α)))

namespace Tree

variable {α : Type} (alg : Node → (String → Option (Folded α)) → α) (leaf : Tree → α)

mutual

def fold : Tree → α
  | .node id kind fields =>
    let parts := foldFields fields
    alg ⟨id, kind, fields⟩ fun name => Entries.get? name parts
  | t => leaf t
termination_by structural t => t

def foldFields : List (String × Tree) → List (String × Folded α)
  | [] => []
  | (name, .list xs) :: rest => (name, .items (foldItems xs)) :: foldFields rest
  | (name, x) :: rest => (name, .single x fun _ => fold x) :: foldFields rest
termination_by structural fs => fs

def foldItems : List Tree → List (Tree × (Unit → α))
  | [] => []
  | x :: xs => (x, fun _ => fold x) :: foldItems xs
termination_by structural xs => xs

end

end Tree

def Folded.nodes {α : Type} : Folded α → List (Unit → α)
  | .single t r => if t.isNode then [r] else []
  | .items xs => (xs.filter fun x => x.1.isNode).map (·.2)

def Node.childResults {α : Type} (n : Node) (child : String → Option (Folded α)) :
    Except Fault (List (Unit → α)) := do
  return ((← n.childKeys).flatMap fun key => ((child key).map Folded.nodes).getD []).reverse

end Overload
