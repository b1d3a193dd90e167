import Overload.Proofs.Dispatch.Comparators
import Overload.Proofs.Lowering.Awaiting
import Overload.Proofs.Lowering.Importing
import Overload.Proofs.Lowering.PlainPrograms
import Overload.Proofs.Lowering.PrivateNames
import Overload.Proofs.Lowering.Purposes
import Overload.Proofs.NameSearch
import Overload.Proofs.Number.Words
import Overload.Proofs.Semantics.Simulation
import Overload.Proofs.Syntax.ArrayElements
import Overload.Proofs.Syntax.Chaining
import Overload.Proofs.Syntax.Constructing
import Overload.Proofs.Syntax.Nesting
import Overload.Proofs.Syntax.Signs
import Overload.Proofs.Syntax.Starting
import Overload.Proofs.Syntax.StringLiteral
import Overload.Proofs.Tree.Conversion
import Overload.Proofs.Value.EqualNumbers
import Overload.Proofs.Value.IntegerArithmetic
import Overload.Proofs.Value.Membership
import Overload.Proofs.Value.Overflow
import Overload.Proofs.Value.TextOrder
import Overload.Tree.Builder
import Overload.Tree.Pool
