import SafeSubset.Typing.Expression

/-! The types of the expressions in statements. A declaration is visible from
the next statement to the end of its block. -/
namespace SafeSubset.Typing

variable {α : Type}

/-- The type of a local variable. One declared by `var` takes the type of its
initial value if that is an integer type. -/
def localType (file : FileScope) (t : TypeName) (value : Option (Expr Ty)) : Ty :=
  match value.map Expr.type with
  | some (.integer i) => if t.isInferred then .integer i else file.resolve t
  | _ => file.resolve t

/-- Where the statements of a contract stand. -/
structure Surroundings where
  file : FileScope
  contract : ContractScope

namespace Surroundings

def scope (s : Surroundings) (locals : Locals) : Scope := ⟨s.file, s.contract, locals⟩

/-- Types an expression. -/
def expr (s : Surroundings) (locals : Locals) (e : Expr α) : Expr Ty :=
  annotate (s.scope locals) e

/-- Types a variable's initial value, in which the variable is not visible. -/
def var (s : Surroundings) (locals : Locals) (v : Variable α) : Variable Ty :=
  ⟨v.type, v.name, v.value.map (s.expr locals), v.span⟩

mutual
/-- Types a statement, and gives the local variables that are visible behind
it. -/
def stmt (s : Surroundings) (locals : Locals) : Stmt α → Stmt Ty × Locals
  | .block span body => (.block span (s.body ([] :: locals) body), locals)
  | .declare span v =>
      let v := s.var locals v
      (.declare span v, locals.declare v.name.text (localType s.file v.type v.value))
  | .expression span e => (.expression span (s.expr locals e), locals)
  | .if span c t none =>
      let (t, after) := s.stmt locals t
      (.if span (s.expr locals c) t none, after)
  | .if span c t (some f) =>
      let (t, between) := s.stmt locals t
      let (f, after) := s.stmt between f
      (.if span (s.expr locals c) t (some f), after)
  | .while span c b =>
      let (b, after) := s.stmt locals b
      (.while span (s.expr locals c) b, after)
  | .doWhile span b c =>
      let (b, after) := s.stmt locals b
      (.doWhile span b (s.expr locals c), after)
  | .for span none c step b =>
      let inner := [] :: locals
      let (b, _) := s.stmt inner b
      (.for span none (c.map (s.expr inner)) (step.map (s.expr inner)) b, locals)
  | .for span (some i) c step b =>
      let (i, inner) := s.stmt ([] :: locals) i
      let (b, _) := s.stmt inner b
      (.for span (some i) (c.map (s.expr inner)) (step.map (s.expr inner)) b, locals)
  | .return span value => (.return span (value.map (s.expr locals)), locals)
  | .emit span e => (.emit span (s.expr locals e), locals)
  | .break span => (.break span, locals)
  | .continue span => (.continue span, locals)
  | .throw span => (.throw span, locals)

/-- Types the statements of a block, each behind the one before. -/
def body (s : Surroundings) (locals : Locals) : List (Stmt α) → List (Stmt Ty)
  | [] => []
  | st :: rest =>
      let (st, after) := s.stmt locals st
      st :: s.body after rest
end

def block (s : Surroundings) (locals : Locals) (b : Block α) : Block Ty :=
  ⟨s.body ([] :: locals) b.body, b.span⟩

end Surroundings
end SafeSubset.Typing
