import Overload.Visit.Basic

/-! Rules written as lists of actions. -/

namespace Overload.Visit

inductive Helper where
  | unary | binary | importer | temporary
  deriving DecidableEq, Repr

inductive Action where
  | log (label : Data)
  | replace (tree : Data)
  | wrap (tree : Data)
  | set (field : String) (value : Data)
  | setParent (field : String) (value : Data)
  | sibling (offset : Int) (value : Data)
  | append (value : Data)
  | pop
  | identify (name : Data)
  | use (helper : Helper)
  | raise (message : String)
  | when (field : String) (value : Data) (actions : List Action)

instance : Inhabited Action := ⟨.pop⟩

structure Host (σ : Type) where
  identify : Tree → σ → Except Fault σ
  use : Helper → σ → Except Fault (String × σ)

def Host.none : Host Unit := ⟨fun _ _ => .error .noAttribute, fun _ _ => .error .noAttribute⟩

variable {σ : Type}

def buildData (d : Data) : Act σ Tree := build fun next => Tree.ofData d next

def buildNode (d : Data) : Act σ Node := do
  match (← buildData d).node? with
  | some n => return n
  | none => throw .missingKind

mutual

def fillHole (filling : Tree) : Tree → Tree
  | .list xs => .list (fillItems filling xs)
  | .node _ (.str "$hole") _ => filling
  | .node id kind fields => .node id kind (fillFields filling fields)
  | t => t
termination_by structural t => t

def fillItems (filling : Tree) : List Tree → List Tree
  | [] => []
  | x :: xs => fillHole filling x :: fillItems filling xs
termination_by structural xs => xs

def fillFields (filling : Tree) : List (String × Tree) → List (String × Tree)
  | [] => []
  | (name, x) :: rest => (name, fillHole filling x) :: fillFields filling rest
termination_by structural fs => fs

end

def entryFor (label : Data) (s : Site) : Data :=
  .list [label, s.node.kind.toData, if s.isRoot then .null else .str s.key,
    (s.index.map fun i => Data.num (.int i)).getD .null, .bool s.isRoot]

mutual

def Action.run (host : Host σ) : Action → Act σ Unit
  | .log label => do note (entryFor label (← getSite))
  | .replace d => do Visit.replace (← buildNode d)
  | .wrap d => do replaceBy (fillHole (← getNode).toTree (← buildNode d).toTree)
  | .set field d => do setNode ((← getNode).set field (← buildData d))
  | .setParent field d => do setParentField field (← buildData d)
  | .sibling offset d => do setSibling offset (← buildData d)
  | .append d => do appendSibling (← buildData d)
  | .pop => popSibling
  | .identify d => do setState (← lift (host.identify (← buildData d) (← getState)))
  | .use helper => do
    let r ← lift (host.use helper (← getState))
    setState r.2
    note (.list [.str "use", .str r.1])
  | .raise message => throw (.raised message)
  | .when field d actions => do
    if ((← getNode).get field).equal (← buildData d) then Action.runAll host actions
    else pure ()
termination_by structural a => a

def Action.runAll (host : Host σ) : List Action → Act σ Unit
  | [] => pure ()
  | a :: rest => do
    Action.run host a
    Action.runAll host rest
termination_by structural as => as

end

abbrev ScriptTable := List (String × List (List Action))

def ofScripts (host : Host σ) (scripts : ScriptTable) : Table σ :=
  scripts.map fun e => (e.1, e.2.map (Action.runAll host))

end Overload.Visit
