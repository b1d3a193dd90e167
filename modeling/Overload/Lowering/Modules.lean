import Overload.Lowering.Pattern
import Overload.Lowering.State

/-! Imports become constants bound to calls of the importer helper. -/

namespace Overload.Lowering

open Visit (attr build getNode getState replaceBy lift)

def importCall (source : Tree) : Step Tree := do
  if (← getState).options.importer.isNone then
    throw (.importerMissing (← lift (source.get "value")))
  let callee ← build (Build.identifier (← useHelper .importer))
  let call ← build (Build.call callee [source])
  if (← getState).importIsAsync then build (Build.await call) else return call

def requireExports : Step Unit := do
  let o := (← getState).options
  if o.returnsExports then pure () else throw (.exportsDisallowed o.returns)

def constant (id init : Tree) : Fresh Tree := do
  Build.declaration (.str "const") [← Build.declarator id init]

def plainProperty (key value : Tree) : Fresh Tree :=
  Build.property key value (.bool false) (.bool false)

def importProperty (specifier : Tree) : Step Tree := do
  match ← lift specifier.kind with
  | .str "ImportDefaultSpecifier" =>
    let key ← build (Build.literal (.str "default"))
    build (plainProperty key (← lift (specifier.attr "local")))
  | .str "ImportSpecifier" =>
    let key ← lift (specifier.attr "imported")
    build (plainProperty key (← lift (specifier.attr "local")))
  | kind => throw (.unknownSpecifier kind)

def namespaceSpecifier? (specifiers : Tree) : Except Fault (Option Tree) := do
  if (← specifiers.length) = 1 then
    let only ← specifiers.index 0
    return if (← only.kind).isText "ImportNamespaceSpecifier" then some only else none
  else return none

def importRule : Step Unit := do
  let specifiers ← attr "specifiers"
  if !specifiers.truthy then
    throw (.emptyImport (← lift ((← attr "source").get "value")))
  let call ← importCall (← attr "source")
  match ← lift (namespaceSpecifier? specifiers) with
  | some only =>
    let name ← lift ((← lift (only.attr "local")).attr "name")
    replaceBy (← build do constant (← Build.identifier name) call)
  | none =>
    let properties ← (← lift specifiers.elements).mapM importProperty
    replaceBy (← build do constant (← Build.objectPattern properties) call)

def declaredNames (declaration : Tree) : Except Fault (List Tree) := do
  match ← declaration.kind with
  | .str "VariableDeclaration" =>
    let declarators ← (← declaration.attr "declarations").elements
    return (← declarators.mapM fun d => do boundNames (← d.attr "id")).flatten
  | .str "FunctionDeclaration" => return [← declaration.attr "id"]
  | .str "ClassDeclaration" => return [← declaration.attr "id"]
  | kind => throw (.unknownDeclaration kind)

def exportName (name key : Tree) : Step Unit := do
  let declaration ← build (Build.identifier name)
  recordExport ⟨declaration, ← build (Build.identifier key), false⟩

def passOn (specifier : Tree) : Step Tree := do
  let temporary ← useHelper .temporary
  let bound ← lift (specifier.attr "local")
  let property ← build do plainProperty bound (← Build.identifier temporary)
  let declaration ← build (Build.identifier temporary)
  recordExport ⟨declaration, ← lift (specifier.attr "exported"), false⟩
  return property

def exportFrom : Step Unit := do
  let call ← importCall (← attr "source")
  let properties ← (← lift (← attr "specifiers").elements).mapM passOn
  replaceBy (← build do constant (← Build.objectPattern properties) call)

def exportSpecifiers (specifiers : Tree) : Step Unit := do
  let elements ← if specifiers.truthy then lift specifiers.elements else pure []
  elements.forM fun s => do
    let declaration ← lift (s.attr "local")
    recordExport ⟨declaration, ← lift (s.attr "exported"), false⟩
  replaceBy (← build Build.empty)

def exportNamedRule : Step Unit := do
  requireExports
  let node ← getNode
  if !(node.get "source").isNull then exportFrom
  else if !(node.get "declaration").isNull then
    let declaration := node.get "declaration"
    (← lift (declaredNames declaration)).forM fun n => do
      let name ← lift (n.attr "name")
      exportName name name
    replaceBy declaration
  else exportSpecifiers (node.get "specifiers")

def exportDefaultRule : Step Unit := do
  requireExports
  let declaration ← attr "declaration"
  let id ← lift (declaration.get "id")
  let kind ← lift declaration.kind
  if (← lift (kind.among ["FunctionDeclaration", "ClassDeclaration"])) && !id.isNull then
    exportName (← lift (id.attr "name")) (.str "default")
    replaceBy declaration
  else
    recordExport ⟨declaration, ← build (Build.identifier (.str "default")), false⟩
    replaceBy (← build Build.empty)

def exportAllRule : Step Unit := do
  requireExports
  let source ← attr "source"
  let call ← importCall source
  let exported := (← getNode).get "exported"
  recordExport ⟨call, exported, exported.isNull⟩
  let _ ← lift (source.get "value")
  replaceBy (← build Build.empty)

def moduleRules : Visit.Table State :=
  [("ImportDeclaration", [importRule]), ("ExportNamedDeclaration", [exportNamedRule]),
   ("ExportDefaultDeclaration", [exportDefaultRule]), ("ExportAllDeclaration", [exportAllRule])]

end Overload.Lowering
