import Overload.Tree.Search

/-! The names that patterns bind. -/

namespace Overload.Lowering

inductive Role where
  | pattern
  | property

abbrev Bound := Role → Except Fault (List Tree)

def boundBy (child : String → Option (Folded Bound)) (name : String) :
    Except Fault (List Tree) :=
  match child name with
  | some (.single _ r) => r () .pattern
  | _ => .error .noAttribute

def boundByAll (child : String → Option (Folded Bound)) (name : String) (role : Role)
    (keep : Tree → Bool) : Except Fault (List Tree) :=
  match child name with
  | some (.items xs) => Tree.runAll ((xs.filter fun x => keep x.1).map fun x _ => x.2 () role)
  | some (.single t _) => do
    if (← t.elements).isEmpty then return [] else .error .noAttribute
  | none => .error .noAttribute

def nodeBound (n : Node) (child : String → Option (Folded Bound)) : Bound
  | .property => if n.is "Property" then boundBy child "value" else boundBy child "argument"
  | .pattern =>
    match n.kind with
    | .str "Identifier" => .ok [n.toTree]
    | .str "AssignmentPattern" => boundBy child "left"
    | .str "RestElement" => boundBy child "argument"
    | .str "ObjectPattern" => boundByAll child "properties" .property fun _ => true
    | .str "ArrayPattern" => boundByAll child "elements" .pattern fun x => !x.isNull
    | kind => .error (.unknownPattern kind)

def boundNames (t : Tree) : Except Fault (List Tree) :=
  t.fold nodeBound (fun _ _ => .error .noAttribute) .pattern

end Overload.Lowering
