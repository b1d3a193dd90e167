import Overload.Tree.Basic

/-! Causes of failure, and the text of those that have one. -/

namespace Overload

inductive Fault where
  | noAttribute
  | unsuitable
  | noEntry
  | outOfRange
  | tooLarge
  | tooLong
  | notNumeral
  | notEncodable
  | missingKind
  | unkeyedExport
  | unsupportedUnary (token : String)
  | unsupportedBinary (token : String)
  | notSearchable (key object : String)
  | notCallable
  | exportsDisallowed (returns : String)
  | importerMissing (source : Tree)
  | emptyImport (source : Tree)
  | unknownSpecifier (kind : Tree)
  | unknownPattern (kind : Tree)
  | unknownDeclaration (kind : Tree)
  | notLowered (kind : Tree)
  | unknownKind (kind : Tree)
  | unknownLiteral (value : Tree)
  | noSynthesizer
  | raised (message : String)
  | exhausted
  deriving Inhabited

namespace Fault

def message? : Fault → Option String
  | .missingKind => some "ESTree node dict is missing its 'type' field"
  | .unkeyedExport => some "keyed export record without a key"
  | .unsupportedUnary token => some ("Unsupported unary operator: " ++ Text.quote token)
  | .unsupportedBinary token => some ("Unsupported binary operator: " ++ Text.quote token)
  | .notSearchable key object =>
    some ("Cannot use 'in' operator to search for '" ++ key ++ "' in " ++ object)
  | .notCallable => some "Right-hand side of 'instanceof' is not callable"
  | .exportsDisallowed returns =>
    some ("export declarations are only allowed when returns='exports' (got returns=" ++
      Text.quote returns ++ ")")
  | .importerMissing source =>
    some ("Cannot import " ++ source.describe ++ ": no importer is configured")
  | .emptyImport source => some ("Empty import from " ++ source.describe ++ " is not allowed")
  | .unknownSpecifier kind => some ("Unknown import specifier: " ++ kind.shown)
  | .unknownPattern kind => some ("Unknown destructuring element: " ++ kind.shown)
  | .unknownDeclaration kind => some ("Unknown export declaration: " ++ kind.shown)
  | .notLowered kind => some (kind.shown ++ " must be lowered before code generation")
  | .unknownKind kind => some ("Cannot emit node of kind " ++ kind.describe)
  | .unknownLiteral value => some ("Cannot emit literal value " ++ value.describe)
  | .noSynthesizer =>
    some "No synthesizer was given; only the generated code is available"
  | .raised message => some message
  | _ => none

end Fault

end Overload
