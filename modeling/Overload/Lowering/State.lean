import Overload.Lowering.Options
import Overload.Names
import Overload.Tree.Search

/-! What lowering a program finds out: helper names, exports, identifiers, and awaits. -/

namespace Overload.Lowering

open Visit (Helper)

/-- One contribution to the exports: a key with its value, or all that a value has. -/
structure Export where
  declaration : Tree
  exported : Tree
  spread : Bool
  deriving Inhabited

structure State where
  options : Options
  names : Supply
  exports : List Export
  identifiers : List Tree
  importFn : Option String
  unaryFn : Option String
  binaryFn : Option String
  hasAwait : Bool
  importIsAsync : Bool
  deriving Inhabited

namespace State

/-- The state at the start: all names of identifiers of the tree are taken. -/
def ofTree (t : Tree) (options : Options) : Except Fault State := do
  let names := (← t.names).filterMap fun
    | .str s => some s
    | _ => none
  return ⟨options, .ofTaken names, [], [], none, none, none, false, options.awaitsImports⟩

def importBase : String := "$import"
def unaryBase : String := "$__"
def binaryBase : String := "__$__"
def temporaryBase : String := "$tmp"

def useImport (s : State) : String × State :=
  let s := { s with hasAwait := s.hasAwait || s.importIsAsync }
  match s.importFn with
  | some name => (name, s)
  | none =>
    let r := s.names.fresh importBase
    (r.1, { s with importFn := some r.1, names := r.2 })

def useUnary (s : State) : String × State :=
  match s.unaryFn with
  | some name => (name, s)
  | none =>
    let r := s.names.fresh unaryBase
    (r.1, { s with unaryFn := some r.1, names := r.2 })

def useBinary (s : State) : String × State :=
  match s.binaryFn with
  | some name => (name, s)
  | none =>
    let r := s.names.fresh binaryBase
    (r.1, { s with binaryFn := some r.1, names := r.2 })

def temporary (s : State) : String × State :=
  let r := s.names.fresh temporaryBase
  (r.1, { s with names := r.2 })

def use (s : State) : Helper → String × State
  | .unary => s.useUnary
  | .binary => s.useBinary
  | .importer => s.useImport
  | .temporary => s.temporary

def identify (s : State) (name : Tree) : Except Fault State := do
  return { s with identifiers := Tree.insertKey s.identifiers (← name.key) }

def mentions (s : State) (name : String) : Bool := s.identifiers.any fun t => t.isText name

inductive Binding where
  | unary
  | binary
  | importer (i : Option Importer)
  deriving DecidableEq, Repr

def bindings (s : State) : List (String × Binding) :=
  (s.unaryFn.map fun n => (n, Binding.unary)).toList ++
    (s.binaryFn.map fun n => (n, Binding.binary)).toList ++
    (s.importFn.map fun n => (n, Binding.importer s.options.importer)).toList

theorem importFn_useImport (s : State) : s.useImport.2.importFn = some s.useImport.1 := by
  unfold useImport
  cases s.importFn <;> simp

theorem unaryFn_useUnary (s : State) : s.useUnary.2.unaryFn = some s.useUnary.1 := by
  unfold useUnary
  cases h : s.unaryFn <;> simp [h]

theorem binaryFn_useBinary (s : State) : s.useBinary.2.binaryFn = some s.useBinary.1 := by
  unfold useBinary
  cases h : s.binaryFn <;> simp [h]

end State

abbrev Step := Visit.Act State

def useHelper (h : Helper) : Step Tree := do
  let r := (← Visit.getState).use h
  Visit.setState r.2
  return .str r.1

def recordExport (e : Export) : Step Unit := do
  let s ← Visit.getState
  Visit.setState { s with exports := s.exports ++ [e] }

def host : Visit.Host State := ⟨fun t s => s.identify t, fun h s => .ok (s.use h)⟩

end Overload.Lowering
