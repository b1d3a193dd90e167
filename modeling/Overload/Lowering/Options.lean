import Overload.Visit.Script

/-! How programs are lowered. -/

namespace Overload

inductive Importer where
  | function
  | coroutine
  | wrappedCoroutine
  | object
  deriving DecidableEq, Repr

def Importer.isAsync : Importer → Bool
  | .coroutine | .wrappedCoroutine => true
  | .function | .object => false

structure Options where
  returns : String
  overloading : Bool
  importer : Option Importer
  importIsAsync : Option Bool
  isAsync : Bool
  customRules : Visit.ScriptTable

namespace Options

def default : Options := ⟨"exports", true, none, none, false, []⟩

instance : Inhabited Options := ⟨default⟩

inductive Setting where
  | returns (s : String)
  | overloading (b : Bool)
  | importer (i : Option Importer)
  | importIsAsync (b : Option Bool)
  | isAsync (b : Bool)
  | customRules (t : Visit.ScriptTable)

def apply (o : Options) : Setting → Options
  | .returns s => { o with returns := s }
  | .overloading b => { o with overloading := b }
  | .importer i => { o with importer := i }
  | .importIsAsync b => { o with importIsAsync := b }
  | .isAsync b => { o with isAsync := b }
  | .customRules t => { o with customRules := t }

def merged (o : Options) (settings : List Setting) : Options := settings.foldl apply o

def awaitsImports (o : Options) : Bool :=
  match o.importIsAsync with
  | some b => b
  | none => o.importer.any Importer.isAsync

def returnsExports (o : Options) : Bool := o.returns == "exports"

end Options

end Overload
