import Overload.Dispatch

/-! Calls of functions by their code, nested at most to a given depth. -/

namespace Overload.Invocation

open Value

def newList (items : List Value) : Run Value := fun trace =>
  (.ok (.list trace.next items), { trace with next := trace.next + 1 })

def record (call : Call) : Run Unit := fun trace =>
  (.ok (), { trace with calls := trace.calls ++ [call] })

def lift {α : Type} (r : Except Fault α) : Run α := fun trace => (r, trace)

def argument (arguments : List Value) (i : Nat) : Run Value :=
  match arguments[i]? with
  | some v => pure v
  | none => throw .outOfRange

def lastArgument (arguments : List Value) : Run Value :=
  match arguments.getLast? with
  | some v => pure v
  | none => throw .outOfRange

variable (invoke : Invoke)

def reply (self : Value) (arguments : List Value) : Reply → Run Answer
  | .ret v => return some v
  | .self => return some self
  | .other => return some (arguments.headD .undefined)
  | .decline => return none
  | .raise message => throw (.raised message)
  | .pair tag => return some (← newList [tag, arguments.headD .undefined])
  | .diff f => do
    let other := arguments.headD .undefined
    return some (← lift (Action.sub ((self.field? f).getD .null) ((other.field? f).getD other)))
  | .apply f => do
    let other := arguments.headD .undefined
    let action ← argument arguments 1
    invoke action [(self.field? f).getD .null, (other.field? f).getD other]
  | .actionText => do return some (.str (← lift (← argument arguments 1).write))
  | .binary token v => return some (← Dispatch.binary invoke (arguments.headD .undefined) token v)
  | .unary token => return some (← Dispatch.unary invoke token (arguments.headD .undefined))

def replyTo (self : Value) (name : String) (arguments : List Value) (r : Reply) : Run Answer := do
  record ⟨self.label, name, arguments⟩
  reply invoke self arguments r

def tokenText (unsupported : String → Fault) : Value → Run String
  | .str s =>
    match s.string? with
    | some token => pure token
    | none => throw (unsupported s.shown)
  | _ => throw .unsuitable

def itemCount : Value → Run Value
  | .list _ xs => pure (.int xs.length)
  | .tuple _ xs => pure (.int xs.length)
  | .str s => pure (.int s.points.length)
  | v =>
    match v.entries? with
    | some es => pure (.int es.length)
    | none => throw .unsuitable

def runCode (arguments : List Value) : Code → Run Answer
  | .idle => return some .undefined
  | .member true name r =>
    match arguments with
    | [] => throw .unsuitable
    | self :: rest => replyTo invoke self name rest r
  | .member false name r => replyTo invoke .undefined name arguments r
  | .action m =>
    match arguments with
    | [a, b] => return some (← lift (Action.ofMember m a b))
    | _ => throw .unsuitable
  | .unaryDispatch =>
    match arguments with
    | [token, v] => return some (← Dispatch.unary invoke (← tokenText .unsupportedUnary token) v)
    | _ => throw .unsuitable
  | .binaryDispatch =>
    match arguments with
    | [a, token, b] => return some (← Dispatch.binary invoke a (← tokenText .unsupportedBinary token) b)
    | _ => throw .unsuitable
  | .importer _ =>
    match arguments with
    | [_] => return some .undefined
    | _ => throw .unsuitable
  | .collect => return some (← newList arguments)
  | .infixed token => do
    let f ← lastArgument arguments
    let a ← argument arguments 0
    let b ← argument arguments 1
    invoke f [a, .str token, b]
  | .prefixed token => do
    let f ← lastArgument arguments
    let a ← argument arguments 0
    invoke f [.str token, a]
  | .length =>
    match arguments with
    | [v] => return some (← itemCount v)
    | _ => throw .unsuitable

def construct (c : Class) (arguments : List Value) : Run Answer :=
  match c, arguments with
  | .builtin "list", [] => return some (← newList [])
  | .builtin "tuple", [] => return some (.tuple 0 [])
  | .builtin "int", [] => return some (.int 0)
  | .builtin "str", [] => return some (.str "")
  | .builtin "dict", [] => fun trace =>
    (.ok (some (.dict trace.next [])), { trace with next := trace.next + 1 })
  | _, [] => fun trace =>
    (.ok (some (.object trace.next c [] [])), { trace with next := trace.next + 1 })
  | _, _ => throw .unsuitable

def call (f : Value) (arguments : List Value) : Run Answer :=
  match f with
  | .function _ _ _ code => runCode invoke arguments code
  | .type c => construct c arguments
  | f => if f.isCallable then return some .undefined else throw .unsuitable

def toDepth : Nat → Invoke
  | 0 => fun _ _ => throw .exhausted
  | depth + 1 => call (toDepth depth)

def depthLimit : Nat := 1000

def bounded : Invoke := toDepth depthLimit

end Overload.Invocation
