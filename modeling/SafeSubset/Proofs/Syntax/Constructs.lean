import SafeSubset.Grammar.SourceUnit
import SafeSubset.Proofs.Syntax.Roots
import Mathlib.Data.List.Forall2
import Mathlib.Logic.Relation

/-! Every node of the tree of a file, whatever it is, with its place and its parts in
source order. -/
namespace SafeSubset

/-- A node of a file's tree. -/
inductive Construct where
  | ident (i : Ident)
  | typeName (t : TypeName)
  | expr (e : Expr Unit)
  | localVariable (v : Variable Unit)
  | stmt (s : Stmt Unit)
  | block (b : Block Unit)
  | parameter (p : Parameter)
  | field (f : Field)
  | invocation (m : Invocation Unit)
  | base (b : Base Unit)
  | member (m : Member Unit)
  | node (n : Node Unit)

def Node.span {α : Type} : Node α → Span
  | .pragma s | .inclusion s => s
  | .contract c => c.span

section Parts

def TypeName.parts : TypeName → List Construct
  | elementary _ _ => []
  | user _ p => p.components.map .ident
  | mapping _ k v => [.typeName k, .typeName v]
  | array _ t _ => [.typeName t]

/-- The arguments of a call, each behind its name where they are named. -/
def argumentParts : List Ident → List (Expr Unit) → List Construct
  | n :: ns, e :: es => .ident n :: .expr e :: argumentParts ns es
  | _, es => es.map .expr

def Expr.parts : Expr Unit → List Construct
  | binary _ _ l r | assign _ _ l r => [.expr l, .expr r]
  | unary _ _ _ e => [.expr e]
  | call _ callee args names => .expr callee :: argumentParts names args
  | member _ base m => [.expr base, .ident m]
  | index _ base k => .expr base :: k.toList.map .expr
  | conditional _ c t f => [.expr c, .expr t, .expr f]
  | tuple _ es => es.map .expr
  | new _ t => [.typeName t]
  | identifier .. | number .. | string .. | bool .. | elementary .. => []

def Variable.parts (v : Variable Unit) : List Construct :=
  .typeName v.type :: .ident v.name :: v.value.toList.map .expr

def Stmt.parts : Stmt Unit → List Construct
  | .block _ body => body.map .stmt
  | .declare _ v => [.localVariable v]
  | .expression _ e | .emit _ e => [.expr e]
  | .if _ c t f => .expr c :: .stmt t :: f.toList.map .stmt
  | .while _ c b => [.expr c, .stmt b]
  | .doWhile _ b c => [.stmt b, .expr c]
  | .for _ i c step b =>
      i.toList.map .stmt ++ (c.toList.map .expr ++ step.toList.map .expr) ++ [.stmt b]
  | .return _ value => value.toList.map .expr
  | .break _ | .continue _ | .throw _ => []

def FunctionDef.parts (f : FunctionDef Unit) : List Construct :=
  f.name.ident?.toList.map .ident ++ (f.params.map .parameter ++ (f.modifiers.map .invocation ++
    (f.returns.map .parameter ++ f.body.toList.map .block)))

def Member.parts : Member Unit → List Construct
  | .state v => v.parts
  | .function f => f.parts
  | .modifier m => .ident m.name :: (m.params.map .parameter ++ [.block m.body])
  | .directive u => u.library.components.map .ident ++ u.target.toList.map .typeName
  | .event e => .ident e.name :: e.params.map .parameter
  | .struct s => .ident s.name :: s.fields.map .field
  | .enum e => .ident e.name :: e.values.map .ident

def Node.parts : Node Unit → List Construct
  | .contract c => .ident c.name :: (c.bases.map .base ++ c.members.map .member)
  | .pragma _ | .inclusion _ => []

end Parts

namespace Construct

def span : Construct → Span
  | ident i => i.span
  | typeName t => t.span
  | expr e => e.span
  | localVariable v => v.span
  | stmt s => s.span
  | block b => b.span
  | parameter p => p.span
  | field f => f.span
  | invocation m => m.span
  | base b => b.span
  | member m => m.span
  | node n => n.span

/-- The immediate parts in source order. -/
def parts : Construct → List Construct
  | ident _ => []
  | typeName t => t.parts
  | expr e => e.parts
  | localVariable v => v.parts
  | stmt s => s.parts
  | block b => b.body.map stmt
  | parameter p => typeName p.type :: p.name.toList.map ident
  | field f => [typeName f.type, ident f.name]
  | invocation m => ident m.name :: m.args.map expr
  | base b => ident b.name :: (b.args.getD []).map expr
  | member m => m.parts
  | node n => n.parts

/-- `x.Has y`: the node `y` is `x` or stands somewhere in it. -/
def Has : Construct → Construct → Prop := Relation.ReflTransGen fun x y => y ∈ x.parts

end Construct

/-- A node of the tree of a file. -/
def SourceUnit.Has (u : SourceUnit Unit) (x : Construct) : Prop :=
  ∃ n ∈ u.nodes, (Construct.node n).Has x

section Expressions

variable {α : Type}

/-- The expressions in a node. -/
def Construct.expressions : Construct → List (Expr Unit)
  | .ident _ | .typeName _ | .parameter _ | .field _ => []
  | .expr e => e.subexpressions
  | .localVariable v => v.expressions
  | .stmt s => s.expressions
  | .block b => b.expressions
  | .invocation m => m.expressions
  | .base b => b.expressions
  | .member m => m.expressions
  | .node (.contract c) => c.expressions
  | .node (.pragma _) | .node (.inclusion _) => []

theorem Construct.mem_argumentParts {x : Construct} {names : List Ident} {es : List (Expr Unit)}
    (member : x ∈ argumentParts names es) : (∃ i, x = .ident i) ∨ ∃ e ∈ es, x = .expr e := by
  induction names, es using argumentParts.induct with
  | case1 n ns e es ih =>
      rcases List.mem_cons.1 member with rfl | member
      · exact .inl ⟨n, rfl⟩
      rcases List.mem_cons.1 member with rfl | member
      · exact .inr ⟨e, List.mem_cons_self, rfl⟩
      · exact (ih member).imp_right fun ⟨d, inside, same⟩ => ⟨d, List.mem_cons_of_mem e inside, same⟩
  | case2 names es other =>
      rw [argumentParts] at member
      · obtain ⟨e, inside, rfl⟩ := List.mem_map.1 member
        exact .inr ⟨e, inside, rfl⟩
      · exact other

theorem flatMap_argumentParts (names : List Ident) (es : List (Expr Unit)) :
    (argumentParts names es).flatMap Construct.expressions = es.flatMap Expr.subexpressions := by
  fun_induction argumentParts names es with
  | case1 n ns e es ih => simp [ih, Construct.expressions]
  | case2 names es other => simp [List.flatMap_map, Construct.expressions]

theorem Expr.flatMap_parts (e : Expr Unit) :
    e.parts.flatMap Construct.expressions = e.children.flatMap subexpressions := by
  cases e with
  | call i callee args names => simp [parts, children, flatMap_argumentParts, Construct.expressions]
  | index i base k => cases k <;> simp [parts, children, Construct.expressions]
  | _ => simp [parts, children, List.flatMap_map, Construct.expressions]

theorem Variable.flatMap_parts (v : Variable Unit) :
    v.parts.flatMap Construct.expressions = v.expressions := by
  simp [parts, expressions, optionalExpressions_eq, List.flatMap_map, Construct.expressions]

theorem Stmt.expressionsAll_flatMap (ss : List (Stmt α)) :
    Stmt.expressionsAll ss = ss.flatMap Stmt.expressions := by
  induction ss with
  | nil => rfl
  | cons s ss ih => rw [Stmt.expressionsAll, ih, List.flatMap_cons]

theorem Stmt.flatMap_parts (s : Stmt Unit) : s.parts.flatMap Construct.expressions = s.expressions := by
  cases s with
  | block span body =>
      simp [parts, expressions, expressionsAll_flatMap, List.flatMap_map, Construct.expressions]
  | «if» span c t f => cases f <;> simp [parts, expressions, Construct.expressions]
  | «for» span i c step b =>
      cases i <;>
        simp [parts, expressions, optionalExpressions_eq, List.flatMap_map, Construct.expressions]
  | _ => simp [parts, expressions, optionalExpressions_eq, List.flatMap_map, Construct.expressions]

theorem Member.flatMap_parts (m : Member Unit) : m.parts.flatMap Construct.expressions = m.expressions := by
  have none : ∀ xs : List Construct, (∀ x ∈ xs, x.expressions = []) →
      xs.flatMap Construct.expressions = [] := fun xs each => List.flatMap_eq_nil_iff.2 each
  cases m with
  | state v => exact v.flatMap_parts
  | function f =>
      have names := none (f.name.ident?.toList.map .ident) (by simp [Construct.expressions])
      have params := none (f.params.map .parameter) (by simp [Construct.expressions])
      have returns := none (f.returns.map .parameter) (by simp [Construct.expressions])
      have body : (f.body.toList.map Construct.block).flatMap Construct.expressions =
          (f.body.map Block.expressions).getD [] := by
        cases f.body <;> simp [Construct.expressions]
      simp only [parts, FunctionDef.parts, List.flatMap_append, names, params, returns, body,
        List.flatMap_map, List.nil_append]
      rfl
  | _ => simp [parts, expressions, List.flatMap_map, Construct.expressions]

/-- The expression that a node is, if it is one. -/
def Construct.expr? : Construct → Option (Expr Unit)
  | .expr e => some e
  | _ => none

/-- The expressions in a node are those in its parts, one part after another, and the node itself
behind them if it is an expression. -/
theorem Construct.expressions_eq (x : Construct) :
    x.expressions = x.parts.flatMap Construct.expressions ++ x.expr?.toList := by
  cases x with
  | expr e => rw [parts, e.flatMap_parts, expressions, e.subexpressions_eq, expr?, Option.toList_some]
  | localVariable v => simp [parts, v.flatMap_parts, expressions, expr?]
  | stmt s => simp [parts, s.flatMap_parts, expressions, expr?]
  | member m => simp [parts, m.flatMap_parts, expressions, expr?]
  | block b =>
      simp [parts, expressions, expr?, Block.expressions, Stmt.expressionsAll_flatMap, List.flatMap_map]
  | invocation m =>
      simp [parts, expressions, expr?, Invocation.expressions, Expr.subexpressionsAll_eq, List.flatMap_map]
  | base b =>
      simp [parts, expressions, expr?, Base.expressions, Expr.subexpressionsAll_eq, List.flatMap_map]
  | node n =>
      cases n <;> simp [parts, Node.parts, expressions, expr?, Contract.expressions, List.flatMap_map]
  | typeName t => cases t <;> simp [parts, TypeName.parts, expressions, expr?]
  | ident i | parameter p | field f => simp [parts, expressions, expr?]

/-- The expressions in a part are in the whole. -/
theorem Construct.expressions_of_part {x y : Construct} (part : y ∈ x.parts) :
    ∀ e ∈ y.expressions, e ∈ x.expressions := by
  intro e inside
  rw [x.expressions_eq]
  exact List.mem_append_left _ (List.mem_flatMap.2 ⟨y, part, inside⟩)

/-- The expressions in a node are those in the whole. -/
theorem Construct.Has.expressions {x y : Construct} (stands : x.Has y) :
    ∀ e ∈ y.expressions, e ∈ x.expressions := by
  induction stands with
  | refl => exact fun _ => id
  | tail _ part ih => exact fun e here => ih e (Construct.expressions_of_part part e here)

end Expressions

section Roots

theorem Construct.expr_mem_argumentParts {e : Expr Unit} {names : List Ident} {es : List (Expr Unit)}
    (member : e ∈ es) : .expr e ∈ argumentParts names es := by
  induction names, es using argumentParts.induct with
  | case1 n ns d es ih =>
      rcases List.mem_cons.1 member with rfl | member
      · simp [argumentParts]
      · simp [argumentParts, ih member]
  | case2 names es other =>
      rw [argumentParts]
      · exact List.mem_map_of_mem member
      · exact other

theorem Expr.part_of_child {e c : Expr Unit} (child : c ∈ e.children) : .expr c ∈ e.parts := by
  cases e with
  | call i callee args names =>
      rcases List.mem_cons.1 child with rfl | child
      · exact List.mem_cons_self
      · exact List.mem_cons_of_mem _ (Construct.expr_mem_argumentParts child)
  | index i base k => cases k <;> simp [parts, children] at child ⊢ <;> exact child
  | _ => simp [parts, children] at child ⊢ <;> exact child

theorem Expr.has_of_mem {e d : Expr Unit} (member : d ∈ e.subexpressions) :
    (Construct.expr e).Has (.expr d) := by
  induction e using induction_children with
  | node e ih =>
      rcases mem_subexpressions.1 member with rfl | ⟨c, child, deep⟩
      · exact .refl
      · exact .head (part_of_child child) (ih c child deep)

variable {r : Expr Unit}

mutual
/-- The roots of a statement stand in it. -/
theorem Stmt.has_root : (s : Stmt Unit) → r ∈ s.roots → (Construct.stmt s).Has (.expr r)
  | .block span body, root => by
      obtain ⟨t, member, stands⟩ := Stmt.has_rootsAll body root
      exact .head (List.mem_map_of_mem member) stands
  | .declare span v, root => by
      have value : .expr r ∈ (Construct.localVariable v).parts := by
        simpa [Construct.parts, Variable.parts, Stmt.roots] using root
      exact .head (by simp [Construct.parts, Stmt.parts]) (.single value)
  | .expression span e, root | .emit span e, root => by
      obtain rfl : r = e := by simpa [Stmt.roots] using root
      exact .single (by simp [Construct.parts, Stmt.parts])
  | .if span c t none, root => by
      rcases List.mem_cons.1 root with rfl | root
      · exact .single (by simp [Construct.parts, Stmt.parts])
      · exact .head (by simp [Construct.parts, Stmt.parts]) (t.has_root root)
  | .if span c t (some f), root => by
      rcases List.mem_cons.1 root with rfl | root
      · exact .single (by simp [Construct.parts, Stmt.parts])
      rcases List.mem_append.1 root with root | root
      · exact .head (by simp [Construct.parts, Stmt.parts]) (t.has_root root)
      · exact .head (by simp [Construct.parts, Stmt.parts]) (f.has_root root)
  | .while span c b, root => by
      rcases List.mem_cons.1 root with rfl | root
      · exact .single (by simp [Construct.parts, Stmt.parts])
      · exact .head (by simp [Construct.parts, Stmt.parts]) (b.has_root root)
  | .doWhile span b c, root => by
      rcases List.mem_append.1 root with root | root
      · exact .head (by simp [Construct.parts, Stmt.parts]) (b.has_root root)
      · obtain rfl := List.mem_singleton.1 root
        exact .single (by simp [Construct.parts, Stmt.parts])
  | .for span none c step b, root => by
      simp only [Stmt.roots, List.mem_append] at root
      rcases root with root | root
      · exact .single (by simpa [Construct.parts, Stmt.parts] using root)
      · exact .head (by simp [Construct.parts, Stmt.parts]) (b.has_root root)
  | .for span (some i) c step b, root => by
      simp only [Stmt.roots, List.append_assoc, List.mem_append] at root
      rcases root with root | root | root | root
      · exact .head (by simp [Construct.parts, Stmt.parts]) (i.has_root root)
      · exact .single (by simp [Construct.parts, Stmt.parts, Option.mem_toList.1 root])
      · exact .single (by simp [Construct.parts, Stmt.parts, Option.mem_toList.1 root])
      · exact .head (by simp [Construct.parts, Stmt.parts]) (b.has_root root)
  | .return span value, root => .single (by simpa [Construct.parts, Stmt.parts, Stmt.roots] using root)
  | .break _, root | .continue _, root | .throw _, root => by simp [Stmt.roots] at root

theorem Stmt.has_rootsAll : (ss : List (Stmt Unit)) → r ∈ Stmt.rootsAll ss →
    ∃ s ∈ ss, (Construct.stmt s).Has (.expr r)
  | [], root => by simp [Stmt.rootsAll] at root
  | s :: ss, root => by
      rcases List.mem_append.1 root with root | root
      · exact ⟨s, List.mem_cons_self, s.has_root root⟩
      · obtain ⟨t, member, stands⟩ := Stmt.has_rootsAll ss root
        exact ⟨t, List.mem_cons_of_mem s member, stands⟩
end

theorem Block.has_root {b : Block Unit} (root : r ∈ Stmt.rootsAll b.body) :
    (Construct.block b).Has (.expr r) := by
  obtain ⟨s, member, stands⟩ := Stmt.has_rootsAll b.body root
  exact .head (List.mem_map_of_mem member) stands

theorem FunctionDef.has_root {f : FunctionDef Unit} (root : r ∈ f.roots) :
    (Construct.member (.function f)).Has (.expr r) := by
  rcases List.mem_append.1 root with root | root
  · obtain ⟨m, member, argument⟩ := List.mem_flatMap.1 root
    have part : Construct.invocation m ∈ f.parts := by simp [parts, member]
    exact .head part (.single (List.mem_cons_of_mem _ (List.mem_map_of_mem argument)))
  · cases body : f.body with
    | none => simp [body] at root
    | some b =>
        have part : Construct.block b ∈ f.parts := by simp [parts, body]
        exact .head part (Block.has_root (by simpa [body] using root))

/-- An expression is in a function exactly where it stands somewhere in it. -/
theorem FunctionDef.has_expr_iff {f : FunctionDef Unit} {e : Expr Unit} :
    (Construct.member (.function f)).Has (.expr e) ↔ e ∈ f.expressions := by
  constructor
  · intro stands
    exact stands.expressions e e.self_mem_subexpressions
  · intro member
    rw [f.expressions_eq] at member
    obtain ⟨r, root, deep⟩ := List.mem_flatMap.1 member
    exact (has_root root).trans (Expr.has_of_mem deep)

end Roots

section Numbers

/-- A member as it is before the functions have their numbers. -/
def Member.unnumbered {α : Type} : Member α → Member α
  | .function f => .function { f with id := 0 }
  | m => m

/-- A node as it is before the contracts and the functions have their numbers. -/
def Node.unnumbered {α : Type} : Node α → Node α
  | .contract c => .contract { c with id := 0, members := c.members.map Member.unnumbered }
  | n => n

variable {α : Type}

theorem map_unnumbered_numberMembers (id : Nat) (ms : List (Member α)) :
    (numberMembers id ms).2.map Member.unnumbered = ms.map Member.unnumbered := by
  induction ms generalizing id with
  | nil => rfl
  | cons m ms ih => cases m <;> simp [numberMembers, ih, Member.unnumbered]

/-- Numbers are all that numbering changes. -/
theorem map_unnumbered_numberNodes (id : Nat) (ns : List (Node α)) :
    (numberNodes id ns).map Node.unnumbered = ns.map Node.unnumbered := by
  induction ns generalizing id with
  | nil => rfl
  | cons n ns ih =>
      cases n with
      | pragma s | inclusion s => simp [numberNodes, ih]
      | contract c => simp [numberNodes, ih, Node.unnumbered, map_unnumbered_numberMembers]

/-- Two nodes that differ in numbers alone. -/
inductive Construct.Alike : Construct → Construct → Prop where
  | refl (x : Construct) : Alike x x
  | member {m k : Member Unit} (same : m.unnumbered = k.unnumbered) : Alike (.member m) (.member k)
  | node {n k : Node Unit} (same : n.unnumbered = k.unnumbered) : Alike (.node n) (.node k)

theorem Construct.Alike.span {x y : Construct} (h : x.Alike y) : x.span = y.span := by
  cases h with
  | refl => rfl
  | @member m k same => cases m <;> cases k <;> simp_all [Member.unnumbered, Construct.span, Member.span]
  | @node n k same => cases n <;> cases k <;> simp_all [Node.unnumbered, Construct.span, Node.span]

/-- Nodes that differ in numbers alone have parts that do so. -/
theorem Construct.Alike.parts {x y : Construct} (h : x.Alike y) :
    List.Forall₂ Alike x.parts y.parts := by
  have same : ∀ xs : List Construct, List.Forall₂ Alike xs xs := fun xs =>
    List.forall₂_same.2 fun x _ => .refl x
  cases h with
  | refl => exact same _
  | @member m k alike =>
      have parts : m.parts = k.parts := by
        cases m <;> cases k <;> simp [Member.unnumbered] at alike
        case function f g =>
          obtain ⟨name, params, returns, -, modifiers, body, -⟩ := alike
          simp only [Member.parts, FunctionDef.parts, name, params, returns, modifiers, body]
        all_goals rw [alike]
      show List.Forall₂ Alike m.parts k.parts
      exact parts ▸ same _
  | @node n k alike =>
      cases n <;> cases k <;> simp [Node.unnumbered] at alike
      case contract.contract c d =>
        obtain ⟨-, name, bases, members, -⟩ := alike
        have related : List.Forall₂ Eq (c.members.map Member.unnumbered)
            (d.members.map Member.unnumbered) := by
          rw [members]
          exact List.forall₂_refl _
        rw [List.forall₂_map_left_iff, List.forall₂_map_right_iff] at related
        show List.Forall₂ Alike (.ident c.name :: (_ ++ _)) (.ident d.name :: (_ ++ _))
        rw [name, bases]
        refine .cons (.refl _) (List.rel_append (same _) ?_)
        rw [List.forall₂_map_left_iff, List.forall₂_map_right_iff]
        exact related.imp fun _ _ alike => .member alike
      all_goals exact .nil

end Numbers
end SafeSubset
