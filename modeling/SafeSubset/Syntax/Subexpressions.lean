import SafeSubset.Syntax.SourceUnit

/-! The expressions inside a piece of syntax, children before their parent and
otherwise in source order: each stands behind all that it contains. -/
namespace SafeSubset

variable {α : Type}

mutual
/-- An expression and everything in it. -/
def Expr.subexpressions : Expr α → List (Expr α)
  | .identifier i n => [.identifier i n]
  | .number i t => [.number i t]
  | .string i t => [.string i t]
  | .bool i b => [.bool i b]
  | .elementary i t => [.elementary i t]
  | .binary i op l r => l.subexpressions ++ r.subexpressions ++ [.binary i op l r]
  | .unary i op fixity e => e.subexpressions ++ [.unary i op fixity e]
  | .assign i op l r => l.subexpressions ++ r.subexpressions ++ [.assign i op l r]
  | .call i callee args names =>
      callee.subexpressions ++ Expr.subexpressionsAll args ++ [.call i callee args names]
  | .member i base m => base.subexpressions ++ [.member i base m]
  | .index i base none => base.subexpressions ++ [.index i base none]
  | .index i base (some k) =>
      base.subexpressions ++ k.subexpressions ++ [.index i base (some k)]
  | .conditional i c t f =>
      c.subexpressions ++ t.subexpressions ++ f.subexpressions ++ [.conditional i c t f]
  | .tuple i es => Expr.subexpressionsAll es ++ [.tuple i es]
  | .new i t => [.new i t]

def Expr.subexpressionsAll : List (Expr α) → List (Expr α)
  | [] => []
  | e :: es => e.subexpressions ++ Expr.subexpressionsAll es
end

/-- The expressions in one that may be absent. -/
def optionalExpressions (e : Option (Expr α)) : List (Expr α) :=
  (e.map Expr.subexpressions).getD []

def Variable.expressions (v : Variable α) : List (Expr α) := optionalExpressions v.value

mutual
def Stmt.expressions : Stmt α → List (Expr α)
  | .block _ body => Stmt.expressionsAll body
  | .declare _ v => v.expressions
  | .expression _ e => e.subexpressions
  | .if _ c t none => c.subexpressions ++ t.expressions
  | .if _ c t (some f) => c.subexpressions ++ t.expressions ++ f.expressions
  | .while _ c b => c.subexpressions ++ b.expressions
  | .doWhile _ b c => b.expressions ++ c.subexpressions
  | .for _ none c step b => optionalExpressions c ++ optionalExpressions step ++ b.expressions
  | .for _ (some i) c step b =>
      i.expressions ++ optionalExpressions c ++ optionalExpressions step ++ b.expressions
  | .return _ value => optionalExpressions value
  | .emit _ e => e.subexpressions
  | .break _ | .continue _ | .throw _ => []

def Stmt.expressionsAll : List (Stmt α) → List (Expr α)
  | [] => []
  | s :: ss => s.expressions ++ Stmt.expressionsAll ss
end

def Block.expressions (b : Block α) : List (Expr α) := Stmt.expressionsAll b.body

def Invocation.expressions (m : Invocation α) : List (Expr α) := Expr.subexpressionsAll m.args

/-- The arguments of the modifiers, then the body. -/
def FunctionDef.expressions (f : FunctionDef α) : List (Expr α) :=
  f.modifiers.flatMap Invocation.expressions ++ (f.body.map Block.expressions).getD []

def Member.expressions : Member α → List (Expr α)
  | .state v => v.expressions
  | .function f => f.expressions
  | .modifier m => m.body.expressions
  | .directive _ | .event _ | .struct _ | .enum _ => []

def Base.expressions (b : Base α) : List (Expr α) := Expr.subexpressionsAll (b.args.getD [])

/-- The arguments of the bases, then the members. -/
def Contract.expressions (c : Contract α) : List (Expr α) :=
  c.bases.flatMap Base.expressions ++ c.members.flatMap Member.expressions

def SourceUnit.expressions (u : SourceUnit α) : List (Expr α) :=
  u.contracts.flatMap Contract.expressions

end SafeSubset
