import Overload.Invocation
import Overload.Lowering.Basic
import Overload.Source.Print

/-!
Compiling: a program is lowered, printed, and turned into a function whose parameters are the
globals that the program mentions and the helpers that it uses.
-/

namespace Overload

abbrev Generator := Tree → Except Fault String

namespace Generator

def source : Generator := Source.print

def kind : Generator := fun t => do return "// " ++ (← t.kind).shown

end Generator

structure Request where
  params : List String
  body : String
  isAsync : Bool

/-- What makes a function of the parameters and the body. -/
abbrev Synthesizer := Request → Except Fault Value

namespace Synthesizer

def collect : Synthesizer := fun _ => .ok (.function 0 (some "collect") true .collect)

def infixed (token : String) : Synthesizer :=
  fun _ => .ok (.function 0 (some "infixed") true (.infixed token))

def prefixed (token : String) : Synthesizer :=
  fun _ => .ok (.function 0 (some "prefixed") true (.prefixed token))

def failing (message : String) : Synthesizer := fun _ => .error (.raised message)

end Synthesizer

def Importer.label : Importer → String
  | .function => "sync"
  | .coroutine => "async"
  | .wrappedCoroutine => "partial_async"
  | .object => "object"

namespace Lowering.State

def Binding.label? : Binding → Option String
  | .unary => some "unary_dispatch"
  | .binary => some "binary_dispatch"
  | .importer i => i.map Importer.label

def Binding.value : Binding → Value
  | .unary => .function 0 (some "unary_dispatch") true .unaryDispatch
  | .binary => .function 0 (some "binary_dispatch") true .binaryDispatch
  | .importer none => .null
  | .importer (some i) => .function 0 (some i.label) true (.importer i.label)

end Lowering.State

abbrev Globals := List (String × Value)

structure Compiled where
  tree : Tree
  code : String
  params : List String
  args : List Value
  isAsync : Bool
  state : Lowering.State
  function : Option Value

structure Compilation where
  result : Except Fault Compiled
  tree : Tree
  next : Nat
  notes : List Data
  requests : List Request

namespace Compiled

def scope (c : Compiled) : Globals := Entries.ofPairs (c.params.zip c.args)

def run (c : Compiled) : Run Answer :=
  match c.function with
  | some f => Invocation.bounded f c.args
  | none => throw .noSynthesizer

end Compiled

def scopeOf (globals : Globals) (state : Lowering.State) : Globals :=
  globals.filter (fun g => state.mentions g.1) ++ state.bindings.map fun b => (b.1, b.2.value)

def compile (options : Options) (globals : Globals) (generator : Generator)
    (synthesizer : Option Synthesizer) (t : Tree) (next : Nat) : Compilation :=
  let lowered := Lowering.run options t next
  let stop (fault : Fault) (requests : List Request) : Compilation :=
    ⟨.error fault, lowered.tree, lowered.next, lowered.notes, requests⟩
  match lowered.outcome, generator lowered.tree with
  | .error fault, _ => stop fault []
  | _, .error fault => stop fault []
  | .ok state, .ok code =>
    let scope := scopeOf globals state
    let params := scope.map (·.1)
    let isAsync := options.isAsync || state.hasAwait
    let compiled (function : Option Value) : Compiled :=
      ⟨lowered.tree, code, params, scope.map (·.2), isAsync, state, function⟩
    match synthesizer with
    | none => ⟨.ok (compiled none), lowered.tree, lowered.next, lowered.notes, []⟩
    | some s =>
      let request := ⟨params, code, isAsync⟩
      match s request with
      | .ok f => ⟨.ok (compiled (some f)), lowered.tree, lowered.next, lowered.notes, [request]⟩
      | .error fault => stop fault [request]

structure Session where
  options : Options
  globals : Globals
  generator : Generator
  synthesizer : Option Synthesizer

namespace Session

def layered (s : Session) (globals : Globals) : Globals :=
  globals.foldl (fun gs g => Entries.set g.1 g.2 gs) s.globals

def compile (s : Session) (globals : Globals) (t : Tree) (next : Nat) : Compilation :=
  Overload.compile s.options (s.layered globals) s.generator s.synthesizer t next

end Session

end Overload
