import Overload.Source.Precedence

/-! Parts of printed text: finished text, and trees that are still to be printed. -/

namespace Overload.Source

inductive Part where
  | text (s : String)
  | tree (t : Tree)
  deriving Inhabited

abbrev Parts := Except Fault (List Part)

def opening : String := "\x7b"
def closing : String := "\x7d"

def operand (t : Tree) (least : Nat) : Parts := do
  if (← precedence t) < least then return [.text "(", .tree t, .text ")"]
  return [.tree t]

def parenthesized (t : Tree) : List Part := [.text "(", .tree t, .text ")"]

def listItem (t : Tree) : Parts := if t.isNull then .ok [] else operand t assignmentLevel

def lastIsHole (xs : List Tree) : Bool :=
  match xs.getLast? with
  | some t => t.isNull
  | none => false

def commaList (items : Tree) : Parts := do
  let xs ← items.elements
  let ps ← xs.mapM listItem
  return (ps.intersperse [.text ", "]).flatten ++ (if lastIsHole xs then [.text ","] else [])

def braced (statements : List Tree) : List Part :=
  .text (opening ++ "\n") :: statements.flatMap (fun s => [Part.tree s, .text "\n"]) ++
    [.text closing]

def bracedBody (body : Tree) : Parts := return braced (← body.elements)

def textIf (c : Bool) (s : String) : List Part := if c then [.text s] else []

end Overload.Source
