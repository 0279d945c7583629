import SafeSubset.Syntax.Stmt

/-! Definitions, and the file that holds them. A contract and each of its
functions have a number, given in source order, by which they are told apart
even where they share a name. -/
namespace SafeSubset

/-- A parameter, a return value, or a field of an event. -/
structure Parameter where
  type : TypeName
  name : Option Ident
  span : Span

structure Field where
  type : TypeName
  name : Ident
  span : Span

/-- What a function is called by. -/
inductive FunctionName where
  | named (name : Ident)
  | constructor
  | fallback
  deriving DecidableEq, Repr

namespace FunctionName

def ident? : FunctionName → Option Ident
  | named n => some n
  | _ => none

/-- The name shown to a reader. -/
def display : FunctionName → String
  | named n => n.text
  | constructor => "constructor"
  | fallback => "fallback"

end FunctionName

/-- Visibility and mutability words of a function. -/
inductive Attribute where
  | isPublic | isPrivate | isInternal | isExternal | isPure | isView | isPayable | isConstant
  deriving DecidableEq, Repr

def Attribute.text : Attribute → String
  | isPublic => "public"
  | isPrivate => "private"
  | isInternal => "internal"
  | isExternal => "external"
  | isPure => "pure"
  | isView => "view"
  | isPayable => "payable"
  | isConstant => "constant"

/-- The use of a modifier in the head of a function. -/
structure Invocation (α : Type) where
  name : Ident
  args : List (Expr α)
  span : Span

structure FunctionDef (α : Type) where
  id : Nat
  name : FunctionName
  params : List Parameter
  returns : List Parameter
  attributes : List Attribute
  modifiers : List (Invocation α)
  /-- Absent where the function is only declared. -/
  body : Option (Block α)
  span : Span

structure ModifierDef (α : Type) where
  name : Ident
  params : List Parameter
  body : Block α
  span : Span

/-- A library attached to a type, or to every type. -/
structure UsingDirective where
  library : Path
  target : Option TypeName
  span : Span

structure EventDef where
  name : Ident
  params : List Parameter
  span : Span

structure StructDef where
  name : Ident
  fields : List Field
  span : Span

structure EnumDef where
  name : Ident
  values : List Ident
  span : Span

inductive Member (α : Type) where
  | state (var : Variable α)
  | function (f : FunctionDef α)
  | modifier (m : ModifierDef α)
  | directive (u : UsingDirective)
  | event (e : EventDef)
  | struct (s : StructDef)
  | enum (e : EnumDef)

def Member.span {α : Type} : Member α → Span
  | .state v => v.span
  | .function f => f.span
  | .modifier m => m.span
  | .directive u => u.span
  | .event e => e.span
  | .struct s => s.span
  | .enum e => e.span

inductive ContractKind where
  | contract | library | interface
  deriving DecidableEq, Repr

def ContractKind.text : ContractKind → String
  | contract => "contract"
  | library => "library"
  | interface => "interface"

/-- A contract that another one inherits from. -/
structure Base (α : Type) where
  name : Ident
  args : Option (List (Expr α))
  span : Span

structure Contract (α : Type) where
  id : Nat
  kind : ContractKind
  name : Ident
  bases : List (Base α)
  members : List (Member α)
  span : Span

namespace Contract

variable {α : Type}

/-- The functions that the contract itself defines, in source order. -/
def functions (c : Contract α) : List (FunctionDef α) :=
  c.members.filterMap fun
    | .function f => some f
    | _ => none

/-- The libraries that the contract itself attaches. -/
def directives (c : Contract α) : List UsingDirective :=
  c.members.filterMap fun
    | .directive u => some u
    | _ => none

end Contract

inductive Node (α : Type) where
  | pragma (span : Span)
  | inclusion (span : Span)
  | contract (c : Contract α)

structure SourceUnit (α : Type) where
  nodes : List (Node α)
  span : Span

namespace SourceUnit

variable {α : Type}

def contracts (u : SourceUnit α) : List (Contract α) :=
  u.nodes.filterMap fun
    | .contract c => some c
    | _ => none

/-- Every function of every contract, in source order. -/
def functions (u : SourceUnit α) : List (FunctionDef α) :=
  u.contracts.flatMap Contract.functions

end SourceUnit
end SafeSubset
