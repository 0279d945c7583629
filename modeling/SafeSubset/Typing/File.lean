import SafeSubset.Syntax.SourceUnit

/-! The type names that a file defines. They are known everywhere in the file,
whichever contract defines them. -/
namespace SafeSubset.Typing

variable {α : Type}

def structDefs (u : SourceUnit α) : List StructDef :=
  u.contracts.flatMap fun c => c.members.filterMap fun
    | .struct s => some s
    | _ => none

def enumDefs (u : SourceUnit α) : List EnumDef :=
  u.contracts.flatMap fun c => c.members.filterMap fun
    | .enum e => some e
    | _ => none

/-- The names of the types that a file defines. -/
structure TypeNames where
  structs : List String
  enums : List String
  contracts : List String

def TypeNames.of (u : SourceUnit α) : TypeNames where
  structs := (structDefs u).map (·.name.text)
  enums := (enumDefs u).map (·.name.text)
  contracts := u.contracts.map (·.name.text)

namespace TypeNames

/-- The type that a defined name stands for. Of a name defined twice the
structure comes first, then the enumeration. -/
def named (names : TypeNames) (n : String) : Ty :=
  if n ∈ names.structs then .struct n
  else if n ∈ names.enums then .enum n
  else if n ∈ names.contracts then .contract n
  else .unknown

/-- The type that a written type stands for. Of a dotted name only the last
component counts. -/
def resolve (names : TypeNames) : TypeName → Ty
  | .elementary _ t => t
  | .user _ path => names.named path.name.text
  | .mapping _ k v => .mapping (names.resolve k) (names.resolve v)
  | .array _ element _ => .array (names.resolve element)

end TypeNames

/-- All that a file says about types. -/
structure FileScope where
  names : TypeNames
  /-- The fields of each structure, the last definition of a name first. -/
  structs : List (String × List (String × Ty))

def FileScope.of (u : SourceUnit α) : FileScope :=
  let names := TypeNames.of u
  { names
    structs := (structDefs u).reverse.map fun s =>
      (s.name.text, s.fields.map fun f => (f.name.text, names.resolve f.type)) }

namespace FileScope

def resolve (file : FileScope) (t : TypeName) : Ty := file.names.resolve t

/-- The type of a field, unknown where the structure has none of that name. -/
def fieldType (file : FileScope) (struct field : String) : Ty :=
  ((file.structs.lookup struct).bind fun fields => fields.lookup field).getD .unknown

end FileScope
end SafeSubset.Typing
