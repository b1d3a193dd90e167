import Overload.Entries

/-! Operator tokens and the members that operands may provide for them. -/

namespace Overload

inductive UnaryOp where
  | pos | neg | not | invert | typeof
  deriving DecidableEq, Repr, Inhabited

namespace UnaryOp

def all : List UnaryOp := [.pos, .neg, .not, .invert, .typeof]

def token : UnaryOp → String
  | .pos => "+"
  | .neg => "-"
  | .not => "!"
  | .invert => "~"
  | .typeof => "typeof"

def member : UnaryOp → String
  | .pos => "op_pos"
  | .neg => "op_neg"
  | .not => "op_not"
  | .invert => "op_invert"
  | .typeof => "op_typeof"

def ofToken? (s : String) : Option UnaryOp := all.find? fun o => o.token == s

def ofMember? (s : String) : Option UnaryOp := all.find? fun o => o.member == s

end UnaryOp

inductive BinaryOp where
  | add | sub | mul | div | mod | pow | lshift | rshift | urshift
  | xor | bitAnd | bitOr
  | eq | ne | seq | sne | lt | le | gt | ge
  | isIn | instanceOf
  | and | or | nullish
  deriving DecidableEq, Repr, Inhabited

namespace BinaryOp

def all : List BinaryOp :=
  [.add, .sub, .mul, .div, .mod, .pow, .lshift, .rshift, .urshift, .xor, .bitAnd, .bitOr, .eq,
   .ne, .seq, .sne, .lt, .le, .gt, .ge, .isIn, .instanceOf, .and, .or, .nullish]

def token : BinaryOp → String
  | .add => "+"
  | .sub => "-"
  | .mul => "*"
  | .div => "/"
  | .mod => "%"
  | .pow => "**"
  | .lshift => "<<"
  | .rshift => ">>"
  | .urshift => ">>>"
  | .xor => "^"
  | .bitAnd => "&"
  | .bitOr => "|"
  | .eq => "=="
  | .ne => "!="
  | .seq => "==="
  | .sne => "!=="
  | .lt => "<"
  | .le => "<="
  | .gt => ">"
  | .ge => ">="
  | .isIn => "in"
  | .instanceOf => "instanceof"
  | .and => "&&"
  | .or => "||"
  | .nullish => "??"

def stem : BinaryOp → String
  | .add => "add"
  | .sub => "sub"
  | .mul => "mul"
  | .div => "div"
  | .mod => "mod"
  | .pow => "pow"
  | .lshift => "lshift"
  | .rshift => "rshift"
  | .urshift => "urshift"
  | .xor => "xor"
  | .bitAnd => "bitwise_and"
  | .bitOr => "bitwise_or"
  | .eq => "eq"
  | .ne => "ne"
  | .seq => "seq"
  | .sne => "sne"
  | .lt => "lt"
  | .le => "le"
  | .gt => "gt"
  | .ge => "ge"
  | .isIn => "in"
  | .instanceOf => "instanceof"
  | .and => "and"
  | .or => "or"
  | .nullish => "nullish"

def ofToken? (s : String) : Option BinaryOp := all.find? fun o => o.token == s

theorem ofToken?_token (o : BinaryOp) : ofToken? o.token = some o := by
  cases o <;> decide

def converse? : BinaryOp → Option BinaryOp
  | .eq => some .eq
  | .ne => some .ne
  | .seq => some .seq
  | .sne => some .sne
  | .lt => some .gt
  | .le => some .ge
  | .gt => some .lt
  | .ge => some .le
  | _ => none

end BinaryOp

structure Member where
  op : BinaryOp
  reversed : Bool
  deriving DecidableEq, Repr, Inhabited

inductive Family where
  | arithmetic | bitwise | logical | comparison
  deriving DecidableEq, Repr, Inhabited

def Family.member : Family → String
  | .arithmetic => "op_arithmetic"
  | .bitwise => "op_bitwise"
  | .logical => "op_logical"
  | .comparison => "op_cmp"

def BinaryOp.family? : BinaryOp → Option Family
  | .add | .sub | .mul | .div | .mod | .pow | .lshift | .rshift | .urshift => some .arithmetic
  | .xor | .bitAnd | .bitOr => some .bitwise
  | .and | .or | .nullish => some .logical
  | .eq | .ne | .lt | .le | .gt | .ge => some .comparison
  | .seq | .sne | .isIn | .instanceOf => none

def BinaryOp.direct (o : BinaryOp) : Member := ⟨o, false⟩

def BinaryOp.swapped (o : BinaryOp) : Member :=
  match o.converse? with
  | some c => ⟨c, false⟩
  | none => ⟨o, true⟩

theorem BinaryOp.family?_swapped (o : BinaryOp) : o.swapped.op.family? = o.family? := by
  cases o <;> rfl

namespace Member

def name (m : Member) : String := (if m.reversed then "op_r" else "op_") ++ m.op.stem

def family? (m : Member) : Option Family := m.op.family?

/-- Members in the order of the tables: the direct ones, then the reversed ones. -/
def all : List Member :=
  BinaryOp.all.map BinaryOp.direct ++
    (BinaryOp.all.filter fun o => o.converse?.isNone).map BinaryOp.swapped

def ofName? (s : String) : Option Member := all.find? fun m => m.name == s

end Member

theorem Member.ofName?_direct (o : BinaryOp) : Member.ofName? o.direct.name = some o.direct := by
  cases o <;> decide +kernel

theorem Member.ofName?_swapped (o : BinaryOp) :
    Member.ofName? o.swapped.name = some o.swapped := by
  cases o <;> decide +kernel

def unaryTable : List (String × String) := UnaryOp.all.map fun o => (o.token, o.member)

def binaryTable : List (String × String) := BinaryOp.all.map fun o => (o.token, o.direct.name)

def reversedTable : List (String × String) :=
  BinaryOp.all.map fun o => (o.direct.name, o.swapped.name)

def familyTable : List (String × String) :=
  [Family.arithmetic, .bitwise, .logical, .comparison].flatMap fun f =>
    (Member.all.filter fun m => m.family? == some f).map fun m => (m.name, f.member)

end Overload
