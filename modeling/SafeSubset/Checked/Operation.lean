import SafeSubset.Syntax.Subexpressions

/-! Which operations are checked: sums, differences and products of the checked
type, and the assignments that compute one. -/
namespace SafeSubset.Checked

inductive Operation where
  | add | subtract | multiply
  deriving DecidableEq, Repr

namespace Operation

/-- The function of the library that does the operation. -/
def method : Operation → String
  | add => "add"
  | subtract => "sub"
  | multiply => "mul"

def ofBinary? : BinaryOp → Option Operation
  | .add => some add
  | .subtract => some subtract
  | .multiply => some multiply
  | _ => none

def ofAssign? : AssignOp → Option Operation
  | .add => some add
  | .subtract => some subtract
  | .multiply => some multiply
  | _ => none

end Operation

/-- The checked operation that a node does itself, if it does one. -/
def operation? : Expr Ty → Option Operation
  | .binary i op _ _ => if i.note.isChecked then Operation.ofBinary? op else none
  | .assign _ op l _ => if l.type.isChecked then Operation.ofAssign? op else none
  | _ => none

/-- Whether an operand has to stand in parentheses before a member access. -/
def bindsLoosely : Expr Ty → Bool
  | .binary .. | .conditional .. | .assign .. | .unary _ _ .before _ => true
  | _ => false

end SafeSubset.Checked
