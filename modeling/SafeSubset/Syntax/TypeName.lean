import SafeSubset.Source.Span
import SafeSubset.Types.Basic

/-! Types as a source file writes them. -/
namespace SafeSubset

/-- A dotted name: its last component and those before it. -/
structure Path where
  qualifiers : List Ident
  name : Ident
  deriving DecidableEq, Repr

namespace Path

/-- The path with the given components, the first of which is kept apart. -/
def ofComponents (first : Ident) : List Ident → Path
  | [] => ⟨[], first⟩
  | next :: rest =>
      let tail := ofComponents next rest
      ⟨first :: tail.qualifiers, tail.name⟩

def components (p : Path) : List Ident := p.qualifiers ++ [p.name]

end Path

inductive TypeName where
  | elementary (span : Span) (type : Ty)
  | user (span : Span) (path : Path)
  | mapping (span : Span) (key value : TypeName)
  /-- An array; a length is kept as it is written. -/
  | array (span : Span) (element : TypeName) (length : Option String)
  deriving DecidableEq, Repr

namespace TypeName

def span : TypeName → Span
  | elementary s _ | user s _ | mapping s _ _ | array s _ _ => s

/-- Whether the type is left to the initial value: the single word `var`. -/
def isInferred : TypeName → Bool
  | user _ ⟨[], name⟩ => name.text == "var"
  | _ => false

end TypeName
end SafeSubset
