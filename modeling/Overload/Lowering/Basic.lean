import Overload.Lowering.Modules
import Overload.Lowering.Operators
import Overload.Lowering.Program

/-! Lowering a program: one visit with all rules. -/

namespace Overload.Lowering

def builtinRules : Visit.Table State := operatorRules ++ moduleRules ++ generalRules

def rules (options : Options) : Visit.Table State :=
  Visit.merge [Visit.ofScripts host options.customRules, builtinRules]

/-- Scripts may put in children without end; a visit with scripts is cut off at last. -/
def scriptSteps : Nat := 0x100000000

structure Lowered where
  outcome : Except Fault State
  tree : Tree
  next : Nat
  notes : List Data

def run (options : Options) (t : Tree) (next : Nat) : Lowered :=
  match t.asNode, State.ofTree t options with
  | .ok root, .ok state =>
    let more := if options.customRules.isEmpty then 0 else scriptSteps
    let v := Visit.runWith more (rules options) root ⟨next, [], state⟩
    ⟨v.outcome.map fun _ => v.progress.state, v.tree, v.progress.next, v.progress.notes⟩
  | .error fault, _ => ⟨.error fault, t, next, []⟩
  | _, .error fault => ⟨.error fault, t, next, []⟩

end Overload.Lowering
