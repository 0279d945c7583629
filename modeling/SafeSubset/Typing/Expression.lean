import SafeSubset.Typing.Inheritance

/-! The types of expressions. Every node gets one, which depends on the types
of its children alone; what cannot be found out is unknown. -/
namespace SafeSubset.Typing

variable {α : Type}

/-- The local variables, by block, the innermost block first. -/
abbrev Locals := List (List (String × Ty))

namespace Locals

def lookup (locals : Locals) (name : String) : Option Ty := locals.findSome? (List.lookup name)

/-- Adds a variable to the innermost block, where it hides an earlier one. -/
def declare (name : String) (t : Ty) : Locals → Locals
  | [] => []
  | block :: outer => ((name, t) :: block) :: outer

end Locals

/-- Where an expression stands. -/
structure Scope where
  file : FileScope
  contract : ContractScope
  locals : Locals

/-- The members of the objects that describe the current transaction. -/
def environmentMember? : (object member : String) → Option Ty
  | "msg", "value" | "msg", "gas" => some .uint256
  | "msg", "sender" => some .address
  | "msg", "data" => some .bytes
  | "msg", "sig" => some (.fixedBytes 4)
  | "block", "number" | "block", "timestamp" | "block", "difficulty" | "block", "gaslimit" =>
      some .uint256
  | "block", "coinbase" => some .address
  | "tx", "gasprice" => some .uint256
  | "tx", "origin" => some .address
  | _, _ => none

namespace Scope

/-- The type of a variable: a local one before one of the contract's state. -/
def variableType? (scope : Scope) (name : String) : Option Ty :=
  scope.locals.lookup name <|> scope.contract.state.lookup name

def nameType (scope : Scope) (name : String) : Ty :=
  (scope.variableType? name).getD
    (match name with
    | "now" => .uint256
    | "this" => .contract scope.contract.name
    | _ => .unknown)

/-- The type of a member of a value of a known type. -/
def valueMember (scope : Scope) (base : Ty) (member : String) : Ty :=
  match base with
  | .array _ | .bytes | .fixedBytes _ => if member = "length" then .uint256 else .unknown
  | .integer i => if i.address ∧ member = "balance" then .uint256 else .unknown
  | .contract _ => if member = "balance" then .uint256 else .unknown
  | .struct name => scope.file.fieldType name member
  | _ => .unknown

/-- The type of a member access. An object of the environment is meant only
where no variable has its name. -/
def memberType (scope : Scope) (base : Expr Ty) (member : String) : Ty :=
  let environment := base.name?.bind fun object =>
    if (scope.variableType? object).isNone then environmentMember? object member else none
  environment.getD (scope.valueMember base.type member)

/-- What calling a bare name gives: a function's return type, or the
structure or contract that the name converts to. -/
def namedCall (scope : Scope) (name : String) : Ty :=
  (scope.contract.returns.lookup name).getD
    (if name ∈ scope.file.names.structs then .struct name
    else if name ∈ scope.file.names.contracts then .contract name
    else .unknown)

/-- The operations of a library of checked arithmetic. -/
def libraryOperations : List String := ["add", "sub", "mul", "div", "mod"]

/-- The type of a call, by what is called. -/
def callType (scope : Scope) : (callee : Expr Ty) → Ty
  | .elementary _ t => t
  | .new info _ => info.note
  | .identifier _ name => scope.namedCall name
  | .member _ base member =>
      match base.type with
      | .integer i => if member.text ∈ libraryOperations then .integer i else .unknown
      | _ => .unknown
  | _ => .unknown

end Scope

/-- The type of an element. -/
def elementType : (base : Ty) → Ty
  | .mapping _ v => v
  | .array t => t
  | .bytes | .fixedBytes _ => .fixedBytes 1
  | _ => .unknown

/-- The type of what stands in parentheses: of a single item its own. -/
def tupleType : List (Expr Ty) → Ty
  | [e] => e.type
  | es => .tuple (es.map Expr.type)

mutual
/-- Types an expression and everything in it. -/
def annotate (scope : Scope) : Expr α → Expr Ty
  | .identifier i n => .identifier ⟨i.span, scope.nameType n⟩ n
  | .number i t => .number ⟨i.span, .rational⟩ t
  | .string i t => .string ⟨i.span, .literalString⟩ t
  | .bool i b => .bool ⟨i.span, .bool⟩ b
  | .elementary i t => .elementary ⟨i.span, t⟩ t
  | .binary i op l r =>
      let l := annotate scope l
      let r := annotate scope r
      .binary ⟨i.span, op.resultType l.type r.type⟩ op l r
  | .unary i op fixity e =>
      let e := annotate scope e
      .unary ⟨i.span, op.resultType e.type⟩ op fixity e
  | .assign i op l r =>
      let l := annotate scope l
      let r := annotate scope r
      .assign ⟨i.span, l.type⟩ op l r
  | .call i callee args names =>
      let callee := annotate scope callee
      .call ⟨i.span, scope.callType callee⟩ callee (annotateAll scope args) names
  | .member i base m =>
      let base := annotate scope base
      .member ⟨i.span, scope.memberType base m.text⟩ base m
  | .index i base none =>
      let base := annotate scope base
      .index ⟨i.span, elementType base.type⟩ base none
  | .index i base (some k) =>
      let base := annotate scope base
      .index ⟨i.span, elementType base.type⟩ base (some (annotate scope k))
  | .conditional i c t f =>
      let t := annotate scope t
      let f := annotate scope f
      .conditional ⟨i.span, t.type.join f.type⟩ (annotate scope c) t f
  | .tuple i es =>
      let es := annotateAll scope es
      .tuple ⟨i.span, tupleType es⟩ es
  | .new i t => .new ⟨i.span, scope.file.resolve t⟩ t

def annotateAll (scope : Scope) : List (Expr α) → List (Expr Ty)
  | [] => []
  | e :: es => annotate scope e :: annotateAll scope es
end

end SafeSubset.Typing
