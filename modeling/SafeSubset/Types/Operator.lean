import SafeSubset.Types.Basic

/-! The operators and the types of what they compute. -/
namespace SafeSubset

inductive BinaryOp where
  | power | multiply | divide | modulo | add | subtract | shiftLeft | shiftRight
  | bitAnd | bitXor | bitOr | less | greater | lessEqual | greaterEqual | equal | notEqual
  | and | or
  deriving DecidableEq, Repr

namespace BinaryOp

def symbol : BinaryOp → String
  | power => "**"
  | multiply => "*"
  | divide => "/"
  | modulo => "%"
  | add => "+"
  | subtract => "-"
  | shiftLeft => "<<"
  | shiftRight => ">>"
  | bitAnd => "&"
  | bitXor => "^"
  | bitOr => "|"
  | less => "<"
  | greater => ">"
  | lessEqual => "<="
  | greaterEqual => ">="
  | equal => "=="
  | notEqual => "!="
  | and => "&&"
  | or => "||"

def all : List BinaryOp :=
  [power, multiply, divide, modulo, add, subtract, shiftLeft, shiftRight, bitAnd, bitXor, bitOr,
   less, greater, lessEqual, greaterEqual, equal, notEqual, and, or]

def ofSymbol? (s : String) : Option BinaryOp :=
  all.find? fun op => op.symbol == s

end BinaryOp

inductive AssignOp where
  | assign | add | subtract | multiply | divide | modulo | bitOr | bitXor | bitAnd
  | shiftLeft | shiftRight
  deriving DecidableEq, Repr

namespace AssignOp

def symbol : AssignOp → String
  | assign => "="
  | add => "+="
  | subtract => "-="
  | multiply => "*="
  | divide => "/="
  | modulo => "%="
  | bitOr => "|="
  | bitXor => "^="
  | bitAnd => "&="
  | shiftLeft => "<<="
  | shiftRight => ">>="

end AssignOp

inductive UnaryOp where
  | not | negate | bitNot | increment | decrement | delete
  deriving DecidableEq, Repr

namespace Ty

/-- The type of two operands taken together: a number literal adopts the other
operand's integer type, integers of one signedness widen, and an address, like
any other pair of different types, has no common type with anything. -/
def join (a b : Ty) : Ty :=
  if a = b then a
  else
    match a, b with
    | rational, integer _ => b
    | integer _, rational => a
    | integer i, integer j =>
        if !i.address && !j.address && i.signed == j.signed then
          integer (if j.bits ≤ i.bits then i else j)
        else unknown
    | _, _ => unknown

/-- The type of a shift or a power: that of its left operand, where a number
literal adopts the right operand's integer type. -/
def scaled (a b : Ty) : Ty :=
  match a, b with
  | rational, integer _ => b
  | _, _ => a

end Ty

/-- The type of a binary operation on operands of the given types. -/
def BinaryOp.resultType (op : BinaryOp) (a b : Ty) : Ty :=
  match op with
  | less | greater | lessEqual | greaterEqual | equal | notEqual | and | or => .bool
  | power | shiftLeft | shiftRight => a.scaled b
  | multiply | divide | modulo | add | subtract | bitAnd | bitXor | bitOr => a.join b

/-- The type of a unary operation on an operand of the given type. -/
def UnaryOp.resultType (op : UnaryOp) (a : Ty) : Ty :=
  match op with
  | not => .bool
  | delete => .tuple []
  | negate | bitNot | increment | decrement => a

end SafeSubset
