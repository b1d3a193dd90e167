import Overload.Lowering.State
import Overload.Operator

/-! Operators become calls of the dispatch helpers. -/

namespace Overload.Lowering

open Visit (attr build getNode getState replaceBy)

def unaryTokens : List String := UnaryOp.all.map UnaryOp.token

def binaryTokens : List String := BinaryOp.all.map BinaryOp.token

def calledAtOnce (body : List Tree) (isAsync : Bool) : Step Tree := do
  let arrow ← build do Build.arrow [] (← Build.block body) (.bool isAsync)
  let call ← build (Build.call arrow [])
  if isAsync then build (Build.await call) else return call

def binaryCall (left token right : Tree) : Step Tree := do
  let callee ← build (Build.identifier (← useHelper .binary))
  build do Build.call callee [left, ← Build.literal token, right]

def assignment (target token value : Tree) : Step Tree := do
  let name ← Visit.lift (target.attr "name")
  let call ← binaryCall (← build (Build.identifier name)) token value
  build do Build.assign (← Build.identifier name) (.str "=") call

def assignThenReturn (target token value : Tree) : Step Tree := do
  let assigned ← assignment target token value
  if ← Visit.lift (value.contains "YieldExpression") then return assigned
  let name ← Visit.lift (target.attr "name")
  let isAsync ← Visit.lift (value.contains "AwaitExpression")
  let body ← build do
    return [← Build.statement assigned, ← Build.ret (← Build.identifier name)]
  calledAtOnce body isAsync

def returnThenAssign (target token : Tree) : Step Tree := do
  let assigned ← assignment target token (← build (Build.literal (.num (.int 1))))
  let name ← Visit.lift (target.attr "name")
  let body ← build do
    let returned ← Build.block [← Build.ret (← Build.identifier name)]
    let final ← Build.block [← Build.statement assigned]
    return [← Build.tryWith returned .null final]
  calledAtOnce body false

def overloading (rule : Step Unit) : Step Unit := do
  if (← getState).options.overloading then rule else pure ()

def unaryRule : Step Unit := overloading do
  let operator ← attr "operator"
  if ← Visit.lift (operator.among unaryTokens) then
    let callee ← build (Build.identifier (← useHelper .unary))
    let argument ← attr "argument"
    replaceBy (← build do Build.call callee [← Build.literal operator, argument])

def binaryRule : Step Unit := overloading do
  let operator ← attr "operator"
  if ← Visit.lift (operator.among binaryTokens) then
    replaceBy (← binaryCall (← attr "left") operator (← attr "right"))

def updateRule : Step Unit := overloading do
  let token ← Visit.lift ((← attr "operator").index 0)
  if ← Visit.lift (token.among binaryTokens) then
    let target ← attr "argument"
    if (← Visit.lift target.kind).isText "Identifier" then
      if (← attr "prefix").truthy then
        replaceBy (← assignThenReturn target token (← build (Build.literal (.num (.int 1)))))
      else replaceBy (← returnThenAssign target token)

def assignmentRule : Step Unit := overloading do
  let operator ← attr "operator"
  if operator.isText "=" then return
  let token ← Visit.lift operator.initial
  if ← Visit.lift (token.among binaryTokens) then
    let target ← attr "left"
    if (← Visit.lift target.kind).isText "Identifier" then
      replaceBy (← assignThenReturn target token (← attr "right"))

def operatorRules : Visit.Table State :=
  [("UnaryExpression", [unaryRule]), ("BinaryExpression", [binaryRule]),
   ("LogicalExpression", [binaryRule]), ("UpdateExpression", [updateRule]),
   ("AssignmentExpression", [assignmentRule])]

end Overload.Lowering
