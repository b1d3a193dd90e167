import Overload.Value.Builtin

/-! Attributes: what values answer with when they are asked for a name. -/

namespace Overload

structure Callee where
  function : Value
  bound : List Value
  deriving Inhabited

namespace Value

def bindTo (receiver v : Value) : Callee :=
  match v with
  | .function _ _ true _ => ⟨v, [receiver]⟩
  | _ => ⟨v, []⟩

def attribute? (v : Value) (name : String) : Option Callee :=
  match v with
  | .object _ c _ attributes =>
    match Entries.get? name attributes with
    | some a => some ⟨a, []⟩
    | none =>
      (c.slot? name).map fun
        | .value a => bindTo v a
        | .classMethod f => ⟨f, [.type c]⟩
        | .static f => ⟨f, []⟩
  | .type c =>
    (c.slot? name).map fun
      | .value a => ⟨a, []⟩
      | .classMethod f => ⟨f, [.type c]⟩
      | .static f => ⟨f, []⟩
  | _ => none

def hasAttribute (v : Value) (name : String) : Bool :=
  (v.attribute? name).isSome || v.ownNames.contains name

def name? : Value → Option Value
  | .function _ name _ _ => name.map fun n => .str n
  | .type c => some (.str c.name)
  | v => (v.attribute? "__name__").map (·.function)

def field? (v : Value) (name : String) : Option Value :=
  match v.entries? with
  | some es => valueAt? (.str name) es
  | none => (v.attribute? name).map (·.function)

end Value

end Overload
