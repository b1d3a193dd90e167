import Overload.Visit.Site

/-!
Visiting a tree bottom-up: the children of a node in the order of their fields, then the rules for
the node itself.
-/

namespace Overload.Visit

structure Scan where
  key : String
  index : Nat
  stop : Nat
  orphan : Option (List Tree)
  deriving Inhabited

structure Frame where
  node : Node
  key : String
  index : Option Nat
  keys : List String
  scan : Option Scan
  deriving Inhabited

inductive Move where
  | stay (frame : Frame)
  | enter (child : Frame) (frame : Frame)
  | leave

namespace Frame

def start (node : Node) (key : String) (index : Option Nat) : Except Fault Frame := do
  return ⟨node, key, index, ← node.childKeys, none⟩

def scanned (f : Frame) (s : Scan) : List Tree :=
  match s.orphan with
  | some xs => xs
  | none =>
    match f.node.get s.key with
    | .list xs => xs
    | _ => []

def moveInto (t : Tree) (key : String) (index : Option Nat) (f : Frame) : Except Fault Move :=
  match t.node? with
  | some n => return .enter (← start n key index) f
  | none => return .stay f

def advance (f : Frame) : Except Fault Move :=
  match f.scan with
  | some s =>
    if s.index < s.stop then do
      let t ← Tree.at? (f.scanned s) s.index
      moveInto t s.key (some s.index) { f with scan := some { s with index := s.index + 1 } }
    else return .stay { f with scan := none }
  | none =>
    match f.keys with
    | [] => return .leave
    | key :: rest =>
      match f.node.get key with
      | .list xs => return .stay { f with keys := rest, scan := some ⟨key, 0, xs.length, none⟩ }
      | t => moveInto t key none { f with keys := rest }

def settle (outer inner : Frame) : Frame :=
  { outer with node := Site.settle outer.node inner.key inner.index inner.node }

def unwind (f : Frame) : List Frame → Tree
  | [] => f.node.toTree
  | outer :: rest => unwind (outer.settle f) rest

def site (f : Frame) (outer : Option Frame) : Site :=
  ⟨f.node, outer.map (·.node), f.key, f.index, outer.bind fun o => o.scan.bind (·.orphan), false⟩

def receive (outer : Frame) (s : Site) : Frame :=
  let parent := s.parent.getD outer.node
  { outer with
    node := Site.settle parent s.key s.index s.node
    scan := outer.scan.map fun scan => { scan with orphan := s.orphan } }

end Frame

variable {σ : Type}

def rulesFor (table : Table σ) (n : Node) : Except Fault (List (Rule σ)) := do
  match ← n.kind.key with
  | .str kind => return (Entries.get? kind table).getD []
  | _ => return []

def applyRules : List (Rule σ) → Act σ Unit
  | [] => pure ()
  | r :: rs => do
    r
    if (← getSite).replaced then pure () else applyRules rs

structure Progress (σ : Type) where
  next : Nat
  notes : List Data
  state : σ

structure Visited (σ : Type) where
  outcome : Except Fault Unit
  tree : Tree
  progress : Progress σ

def runFrames (table : Table σ) : Nat → Frame → List Frame → Progress σ → Visited σ
  | 0, f, outer, p => ⟨.error .exhausted, f.unwind outer, p⟩
  | fuel + 1, f, outer, p =>
    match f.advance with
    | .error fault => ⟨.error fault, f.unwind outer, p⟩
    | .ok (.stay f) => runFrames table fuel f outer p
    | .ok (.enter child f) => runFrames table fuel child (f :: outer) p
    | .ok .leave =>
      match rulesFor table f.node with
      | .error fault => ⟨.error fault, f.unwind outer, p⟩
      | .ok rules =>
        let r := applyRules rules ⟨f.site outer.head?, p.next, p.notes, p.state⟩
        let p : Progress σ := ⟨r.2.next, r.2.notes, r.2.state⟩
        match outer, r.1 with
        | [], _ => ⟨r.1, r.2.site.node.toTree, p⟩
        | o :: rest, .ok _ => runFrames table fuel (o.receive r.2.site) rest p
        | o :: rest, .error fault => ⟨.error fault, (o.receive r.2.site).unwind rest, p⟩

/-- Steps enough for rules that change no other nodes than their own. -/
def stepBound (t : Tree) : Nat := 8 * t.size

/-- A visit in the bound and some steps more, for rules that put in children elsewhere. -/
def runWith (more : Nat) (table : Table σ) (root : Node) (p : Progress σ) : Visited σ :=
  match Frame.start root "" none with
  | .error fault => ⟨.error fault, root.toTree, p⟩
  | .ok f => runFrames table (stepBound root.toTree + more) f [] p

def run (table : Table σ) (root : Node) (p : Progress σ) : Visited σ := runWith 0 table root p

def merge (tables : List (Table σ)) : Table σ :=
  tables.foldl (fun merged table =>
    table.foldl (fun m e => Entries.set e.1 ((Entries.get? e.1 m).getD [] ++ e.2) m) merged) []

end Overload.Visit
