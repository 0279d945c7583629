import SafeSubset.Syntax.Expr

/-! Statements. -/
namespace SafeSubset

/-- A state variable or a local variable. -/
structure Variable (α : Type) where
  type : TypeName
  name : Ident
  value : Option (Expr α)
  span : Span

inductive Stmt (α : Type) where
  | block (span : Span) (body : List (Stmt α))
  | declare (span : Span) (var : Variable α)
  | expression (span : Span) (e : Expr α)
  | «if» (span : Span) (condition : Expr α) (onTrue : Stmt α) (onFalse : Option (Stmt α))
  | «while» (span : Span) (condition : Expr α) (body : Stmt α)
  | doWhile (span : Span) (body : Stmt α) (condition : Expr α)
  | «for» (span : Span) (init : Option (Stmt α)) (condition step : Option (Expr α))
      (body : Stmt α)
  | «return» (span : Span) (value : Option (Expr α))
  | emit (span : Span) (event : Expr α)
  | «break» (span : Span)
  | «continue» (span : Span)
  | throw (span : Span)

def Stmt.span {α : Type} : Stmt α → Span
  | .block s _ | .declare s _ | .expression s _ | .if s _ _ _ | .while s _ _ | .doWhile s _ _
  | .for s _ _ _ _ | .return s _ | .emit s _ | .break s | .continue s | .throw s => s

/-- The statements between two braces. -/
structure Block (α : Type) where
  body : List (Stmt α)
  span : Span

end SafeSubset
