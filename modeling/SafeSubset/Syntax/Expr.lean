import SafeSubset.Syntax.TypeName
import SafeSubset.Types.Operator

/-! Expressions. Every node carries its place and a note of type `α`: nothing
when it comes from the grammar, its type once it has been typed. A
parenthesised expression is a tuple of one item, so each node has the span of
its own tokens. -/
namespace SafeSubset

/-- What every expression carries. -/
structure Info (α : Type) where
  span : Span
  note : α
  deriving DecidableEq, Repr

/-- Where a unary operator stands. -/
inductive Fixity where
  | before | after
  deriving DecidableEq, Repr

inductive Expr (α : Type) where
  | identifier (info : Info α) (name : String)
  /-- A number as it is written, with its unit if it has one. -/
  | number (info : Info α) (text : String)
  /-- The text between the quotes, escapes as they are written. -/
  | string (info : Info α) (text : String)
  | bool (info : Info α) (value : Bool)
  /-- The name of an elementary type, as in a conversion. -/
  | elementary (info : Info α) (type : Ty)
  | binary (info : Info α) (op : BinaryOp) (lhs rhs : Expr α)
  | unary (info : Info α) (op : UnaryOp) (fixity : Fixity) (operand : Expr α)
  | assign (info : Info α) (op : AssignOp) (lhs rhs : Expr α)
  /-- A call; where the arguments are named there is one name for each. -/
  | call (info : Info α) (callee : Expr α) (args : List (Expr α)) (names : List Ident)
  | member (info : Info α) (base : Expr α) (member : Ident)
  | index (info : Info α) (base : Expr α) (index : Option (Expr α))
  | conditional (info : Info α) (condition onTrue onFalse : Expr α)
  | tuple (info : Info α) (items : List (Expr α))
  | new (info : Info α) (type : TypeName)

namespace Expr

variable {α : Type}

def info : Expr α → Info α
  | identifier i _ | number i _ | string i _ | bool i _ | elementary i _ | binary i _ _ _
  | unary i _ _ _ | assign i _ _ _ | call i _ _ _ | member i _ _ | index i _ _
  | conditional i _ _ _ | tuple i _ | new i _ => i

def span (e : Expr α) : Span := e.info.span

def note (e : Expr α) : α := e.info.note

/-- The name of an expression that is nothing but a name. -/
def name? : Expr α → Option String
  | identifier _ n => some n
  | _ => none

end Expr

/-- The type of an expression that has been typed. -/
def Expr.type (e : Expr Ty) : Ty := e.note

end SafeSubset
