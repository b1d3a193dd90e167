import Overload.Tree.Build
import Overload.Tree.Kind

/-!
The place at which rules work: the node they are applied to and its parent with the slot that the
node stands in.
-/

namespace Overload.Visit

structure Site where
  node : Node
  parent : Option Node
  key : String
  index : Option Nat
  orphan : Option (List Tree)
  replaced : Bool
  deriving Inhabited

/-- What rules work with: the site, the next free node number, notes, and a state of their own. -/
structure Context (σ : Type) where
  site : Site
  next : Nat
  notes : List Data
  state : σ

abbrev Act (σ : Type) := ExceptT Fault (StateM (Context σ))

abbrev Rule (σ : Type) := Act σ Unit

abbrev Table (σ : Type) := List (String × List (Rule σ))

namespace Site

def isRoot (s : Site) : Bool := s.parent.isNone

def holds (parent : Node) (key : String) (index : Option Nat) (id : Nat) : Bool :=
  match parent.get key, index with
  | .list xs, some i => ((xs[i]?).bind Tree.node?).any fun n => n.id == id
  | .node j _ _, none => j == id
  | _, _ => false

def put (parent : Node) (key : String) (index : Option Nat) (value : Tree) :
    Except Fault Node :=
  match index with
  | none => .ok (parent.set key value)
  | some i =>
    match parent.get key with
    | .list xs =>
      if i < xs.length then .ok (parent.set key (.list (xs.set i value))) else .error .outOfRange
    | _ => .error .unsuitable

def settle (parent : Node) (key : String) (index : Option Nat) (node : Node) : Node :=
  if holds parent key index node.id then
    match put parent key index node.toTree with
    | .ok p => p
    | .error _ => parent
  else parent

theorem id_put {parent p : Node} {key : String} {index : Option Nat} {value : Tree}
    (h : put parent key index value = .ok p) : p.id = parent.id := by
  unfold put at h
  split at h
  · obtain rfl := Except.ok.inj h
    exact Node.id_set ..
  · split at h
    · split at h
      · obtain rfl := Except.ok.inj h
        exact Node.id_set ..
      · cases h
    · cases h

end Site

variable {σ : Type}

def lift {α : Type} (r : Except Fault α) : Act σ α := fun c => (r, c)

def getSite : Act σ Site := fun c => (.ok c.site, c)

def setSite (s : Site) : Act σ Unit := fun c => (.ok (), { c with site := s })

def getNode : Act σ Node := do return (← getSite).node

def setNode (n : Node) : Act σ Unit := do setSite { ← getSite with node := n }

def getState : Act σ σ := fun c => (.ok c.state, c)

def setState (s : σ) : Act σ Unit := fun c => (.ok (), { c with state := s })

def note (d : Data) : Act σ Unit := fun c => (.ok (), { c with notes := c.notes ++ [d] })

def build {α : Type} (f : Fresh α) : Act σ α := fun c =>
  let r := f c.next
  (.ok r.1, { c with next := r.2 })

def attr (name : String) : Act σ Tree := do lift ((← getNode).attr name)

def parent : Act σ Node := do
  match (← getSite).parent with
  | some p => return p
  | none => throw .noAttribute

def setParent (p : Node) : Act σ Unit := do setSite { ← getSite with parent := some p }

def replace (new : Node) : Act σ Unit := do
  let s ← getSite
  match s.parent with
  | none => setSite { s with node := s.node.overwrite new, replaced := true }
  | some p =>
    let p ← lift (Site.put p s.key s.index new.toTree)
    setSite { s with parent := some p, node := new, replaced := true }

def replaceBy (t : Tree) : Act σ Unit := do replace (← lift t.asNode)

def setParentField (name : String) (value : Tree) : Act σ Unit := do
  let p ← parent
  let s ← getSite
  match s.index, s.orphan, p.get s.key with
  | some _, none, .list xs =>
    if name = s.key then setSite { s with orphan := some xs } else pure ()
  | _, _, _ => pure ()
  setParent (p.set name value)

def siblings (fault : Fault) : Act σ (List Tree) := do
  match (← parent).get (← getSite).key with
  | .list xs => return xs
  | _ => throw fault

def setSiblings (xs : List Tree) : Act σ Unit := do
  setParent ((← parent).set (← getSite).key (.list xs))

def setSibling (offset : Int) (value : Tree) : Act σ Unit := do
  let xs ← siblings .unsuitable
  let i : Int := ((← getSite).index.getD 0 : Nat) + offset
  let j := if i < 0 then i + xs.length else i
  if 0 ≤ j ∧ j < xs.length then setSiblings (xs.set j.toNat value) else throw .outOfRange

def appendSibling (value : Tree) : Act σ Unit := do
  setSiblings ((← siblings .noAttribute) ++ [value])

def popSibling : Act σ Unit := do
  let xs ← siblings .noAttribute
  if xs.isEmpty then throw .outOfRange else setSiblings xs.dropLast

end Overload.Visit
