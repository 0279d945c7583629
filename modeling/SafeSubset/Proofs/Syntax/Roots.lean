import SafeSubset.Syntax.Subexpressions

/-! The expressions of a piece of syntax by their place in it: the parts of an
expression, and the roots, which are the expressions that stand in no other.
Every traversal visits the roots in source order and the parts of each before
itself. -/
namespace SafeSubset

variable {α β : Type}

namespace Expr

/-- The immediate parts of an expression in source order. -/
def children : Expr α → List (Expr α)
  | .binary _ _ l r | .assign _ _ l r => [l, r]
  | .unary _ _ _ e => [e]
  | .call _ callee args _ => callee :: args
  | .member _ base _ => [base]
  | .index _ base none => [base]
  | .index _ base (some k) => [base, k]
  | .conditional _ c t f => [c, t, f]
  | .tuple _ es => es
  | .identifier .. | .number .. | .string .. | .bool .. | .elementary .. | .new .. => []

theorem sizeOf_child {e c : Expr α} (h : c ∈ e.children) : sizeOf c < sizeOf e := by
  cases e with
  | call _ callee args _ =>
      rcases List.mem_cons.1 h with rfl | h
      · simp; omega
      · have := List.sizeOf_lt_of_mem h
        simp; omega
  | tuple _ es =>
      have := List.sizeOf_lt_of_mem (show c ∈ es from h)
      simp; omega
  | index _ base k => cases k <;> simp [children] at h <;> grind
  | _ => simp [children] at h <;> grind

/-- What holds of a node once it holds of its parts holds of every expression. -/
theorem induction_children {P : Expr α → Prop} (node : ∀ e : Expr α, (∀ c ∈ e.children, P c) → P e)
    (e : Expr α) : P e :=
  node e fun c _ => induction_children node c
  termination_by sizeOf e
  decreasing_by exact sizeOf_child ‹_›

theorem subexpressionsAll_eq (es : List (Expr α)) :
    subexpressionsAll es = es.flatMap subexpressions := by
  induction es with
  | nil => rfl
  | cons e es ih => simp [subexpressionsAll, ih]

theorem subexpressions_eq (e : Expr α) :
    e.subexpressions = e.children.flatMap subexpressions ++ [e] := by
  cases e with
  | index _ base k => cases k <;> simp [subexpressions, children]
  | _ => simp [subexpressions, children, subexpressionsAll_eq]

theorem self_mem_subexpressions (e : Expr α) : e ∈ e.subexpressions := by
  simp [subexpressions_eq e]

theorem mem_subexpressions {e d : Expr α} :
    d ∈ e.subexpressions ↔ d = e ∨ ∃ c ∈ e.children, d ∈ c.subexpressions := by
  simp [subexpressions_eq e, or_comm]

theorem mem_subexpressions_trans {e d c : Expr α} (inner : c ∈ d.subexpressions)
    (outer : d ∈ e.subexpressions) : c ∈ e.subexpressions := by
  induction e using induction_children with
  | node e ih =>
      rcases mem_subexpressions.1 outer with rfl | ⟨b, child, inside⟩
      · exact inner
      · exact mem_subexpressions.2 (.inr ⟨b, child, ih b child inside⟩)

end Expr

mutual
/-- The expressions of a statement that stand in no other expression. -/
def Stmt.roots : Stmt α → List (Expr α)
  | .block _ body => Stmt.rootsAll body
  | .declare _ v => v.value.toList
  | .expression _ e => [e]
  | .if _ c t none => c :: t.roots
  | .if _ c t (some f) => c :: (t.roots ++ f.roots)
  | .while _ c b => c :: b.roots
  | .doWhile _ b c => b.roots ++ [c]
  | .for _ none c step b => c.toList ++ step.toList ++ b.roots
  | .for _ (some i) c step b => i.roots ++ c.toList ++ step.toList ++ b.roots
  | .return _ value => value.toList
  | .emit _ e => [e]
  | .break _ | .continue _ | .throw _ => []

def Stmt.rootsAll : List (Stmt α) → List (Expr α)
  | [] => []
  | s :: ss => s.roots ++ Stmt.rootsAll ss
end

def FunctionDef.roots (f : FunctionDef α) : List (Expr α) :=
  f.modifiers.flatMap Invocation.args ++ (f.body.map fun b => Stmt.rootsAll b.body).getD []

def Member.roots : Member α → List (Expr α)
  | .state v => v.value.toList
  | .function f => f.roots
  | .modifier m => Stmt.rootsAll m.body.body
  | .directive _ | .event _ | .struct _ | .enum _ => []

def Base.roots (b : Base α) : List (Expr α) := b.args.getD []

def Contract.roots (c : Contract α) : List (Expr α) :=
  c.bases.flatMap Base.roots ++ c.members.flatMap Member.roots

theorem optionalExpressions_eq (e : Option (Expr α)) :
    optionalExpressions e = e.toList.flatMap Expr.subexpressions := by
  cases e <;> simp [optionalExpressions]

mutual
theorem Stmt.expressions_eq : (s : Stmt α) → s.expressions = s.roots.flatMap Expr.subexpressions
  | .block _ body => by simp [Stmt.expressions, Stmt.roots, Stmt.expressionsAll_eq body]
  | .declare _ _ => by
      simp [Stmt.expressions, Stmt.roots, Variable.expressions, optionalExpressions_eq]
  | .expression _ _ | .emit _ _ => by simp [Stmt.expressions, Stmt.roots]
  | .if _ _ t none => by simp [Stmt.expressions, Stmt.roots, Stmt.expressions_eq t]
  | .if _ _ t (some f) => by
      simp [Stmt.expressions, Stmt.roots, Stmt.expressions_eq t, Stmt.expressions_eq f]
  | .while _ _ b => by simp [Stmt.expressions, Stmt.roots, Stmt.expressions_eq b]
  | .doWhile _ b _ => by simp [Stmt.expressions, Stmt.roots, Stmt.expressions_eq b]
  | .for _ none _ _ b => by
      simp [Stmt.expressions, Stmt.roots, optionalExpressions_eq, Stmt.expressions_eq b]
  | .for _ (some i) _ _ b => by
      simp [Stmt.expressions, Stmt.roots, optionalExpressions_eq, Stmt.expressions_eq i,
        Stmt.expressions_eq b]
  | .return _ _ => by simp [Stmt.expressions, Stmt.roots, optionalExpressions_eq]
  | .break _ | .continue _ | .throw _ => by simp [Stmt.expressions, Stmt.roots]

theorem Stmt.expressionsAll_eq : (ss : List (Stmt α)) →
    Stmt.expressionsAll ss = (Stmt.rootsAll ss).flatMap Expr.subexpressions
  | [] => rfl
  | s :: ss => by
      simp [Stmt.expressionsAll, Stmt.rootsAll, Stmt.expressions_eq s, Stmt.expressionsAll_eq ss]
end

theorem Invocation.expressions_eq :
    (Invocation.expressions : Invocation α → _) = fun m => m.args.flatMap Expr.subexpressions :=
  funext fun m => Expr.subexpressionsAll_eq m.args

theorem FunctionDef.expressions_eq (f : FunctionDef α) :
    f.expressions = f.roots.flatMap Expr.subexpressions := by
  unfold FunctionDef.expressions FunctionDef.roots
  rw [Invocation.expressions_eq]
  cases f.body <;> simp [List.flatMap_assoc, Block.expressions, Stmt.expressionsAll_eq]

theorem Member.expressions_eq (m : Member α) :
    m.expressions = m.roots.flatMap Expr.subexpressions := by
  cases m <;> simp [Member.expressions, Member.roots, Variable.expressions, optionalExpressions_eq,
    FunctionDef.expressions_eq, Block.expressions, Stmt.expressionsAll_eq]

theorem Base.expressions_eq :
    (Base.expressions : Base α → _) = fun b => b.roots.flatMap Expr.subexpressions :=
  funext fun _ => Expr.subexpressionsAll_eq _

/-- A contract's expressions are its roots, each behind all that it contains. -/
theorem Contract.expressions_eq (c : Contract α) :
    c.expressions = c.roots.flatMap Expr.subexpressions := by
  have members : (Member.expressions : Member α → _) =
      fun m => m.roots.flatMap Expr.subexpressions := funext Member.expressions_eq
  simp [Contract.expressions, Contract.roots, List.flatMap_assoc, Base.expressions_eq, members]

end SafeSubset
