import Overload.Tree.Conversion
import Overload.Tree.Kind

/-! A pool of trees that may share nodes: a change of a node shows in every tree that holds it. -/

namespace Overload

structure Pool where
  roots : List Tree
  next : Nat
  deriving Inhabited

namespace Pool

def empty : Pool := ⟨[], 0⟩

def add (p : Pool) (d : Data) : Except Fault Pool := do
  let r ← Tree.load d p.next
  return ⟨p.roots ++ [r.1], r.2⟩

def root (p : Pool) (i : Nat) : Except Fault Tree := Tree.at? p.roots i

def change (p : Pool) (id : Nat) (f : Node → Node) : Pool :=
  { p with roots := p.roots.map (Tree.update id f) }

inductive Step where
  | field (name : String)
  | position (i : Nat)

def follow (t : Tree) : List Step → Except Fault Tree
  | [] => .ok t
  | .field name :: rest => do follow (← t.attr name) rest
  | .position i :: rest => do follow (← t.index i) rest

def overwrite (p : Pool) (i j : Nat) : Except Fault Pool := do
  let target ← (← p.root i).asNode
  let source ← (← p.root j).asNode
  return p.change target.id fun n => n.overwrite source

def set (p : Pool) (i : Nat) (path : List Step) (name : String) (value : Data) :
    Except Fault Pool := do
  let target ← (← follow (← p.root i) path).asNode
  let r := Tree.ofData value p.next
  return { p.change target.id (fun n => n.set name r.1) with next := r.2 }

end Pool

def Node.isAsync (n : Node) : Bool := (n.get "async").truthy

def Tree.sortKeys (keys : List Tree) : List Tree :=
  keys.mergeSort fun a b => a.shown ≤ b.shown

end Overload
