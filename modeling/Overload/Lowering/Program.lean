import Overload.Lowering.State

/-! The end of a program: it becomes a block that returns its exports. -/

namespace Overload.Lowering

open Visit (attr build getNode getSite getState setNode setState lift)

def sameName (key value : Tree) : Except Fault Bool := do
  if !(← key.kind).isText "Identifier" then return false
  if !(← value.kind).isText "Identifier" then return false
  return (← key.attr "name").equal (← value.attr "name")

def sameNode (key value : Tree) : Bool :=
  match key.node?, value.node? with
  | some k, some v => k.id == v.id
  | _, _ => false

abbrev Making := ExceptT Fault Fresh

def making {α : Type} (f : Fresh α) : Making α := fun next =>
  let r := f next
  (.ok r.1, r.2)

def checked {α : Type} (r : Except Fault α) : Making α := fun next => (r, next)

def copied (n : Node) : Fresh Tree := fun next => ({ n with id := next }.toTree, next + 1)

def exportProperty (e : Export) : Making Tree := do
  if e.spread then making (Build.spread e.declaration)
  else if e.exported.isNull then throw .unkeyedExport
  else
    let key ←
      if sameNode e.exported e.declaration then
        making (copied (← checked e.exported.asNode))
      else pure e.exported
    let shorthand ← checked (sameName key e.declaration)
    making (Build.property key e.declaration (.bool shorthand) (.bool false))

/-- The object that a program returns, with its exports in the order of their records. -/
def exportsObject (records : List Export) : Making Tree := do
  making (Build.objectExpression (← records.mapM exportProperty))

def appended (n : Node) (body : List Tree) (t : Tree) : Node := n.set "body" (.list (body ++ [t]))

def programRule : Step Unit := do
  if !(← getSite).isRoot then return
  setNode (((← getNode).set "type" (.str "BlockStatement")).erase "sourceType")
  let s ← getState
  if s.options.returnsExports then
    match ← attr "body" with
    | .list body =>
      let made : Making Tree := do making (Build.ret (← exportsObject s.exports))
      let statement ← lift (← build made)
      setNode (appended (← getNode) body statement)
    | _ => throw .noAttribute

def noteAwait : Step Unit := do setState { ← getState with hasAwait := true }

def forOfRule : Step Unit := do
  if ((← getNode).get "await").truthy then noteAwait else pure ()

def identifierRule : Step Unit := do
  let name ← attr "name"
  setState (← lift ((← getState).identify name))

def generalRules : Visit.Table State :=
  [("Program", [programRule]), ("AwaitExpression", [noteAwait]),
   ("ForOfStatement", [forOfRule]), ("Identifier", [identifierRule])]

end Overload.Lowering
