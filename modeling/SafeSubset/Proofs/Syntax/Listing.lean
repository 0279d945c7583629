import SafeSubset.Proofs.Syntax.Constructs

/-! All nodes of a file's tree in a row, the parts of each before it. The expressions among them,
in this order, are those that a traversal of the file visits. -/
namespace SafeSubset

namespace Construct

variable {x y : Construct}

section Sizes

theorem sizeOf_of_arguments {names : List Ident} {es : List (Expr Unit)}
    (part : y ∈ argumentParts names es) : sizeOf y ≤ sizeOf names + sizeOf es := by
  fun_induction argumentParts names es with
  | case1 n ns e es ih => grind
  | case2 names es other => grind [→ List.sizeOf_lt_of_mem]

theorem sizeOf_component {p : Path} {i : Ident} (member : i ∈ p.components) : sizeOf i < sizeOf p := by
  cases p
  simp only [Path.components, List.mem_append, List.mem_singleton] at member
  grind [→ List.sizeOf_lt_of_mem]

theorem sizeOf_of_typeName {t : TypeName} (part : y ∈ t.parts) : sizeOf y ≤ sizeOf t := by
  cases t <;> simp [TypeName.parts] at part <;> grind [→ sizeOf_component]

theorem sizeOf_of_expr {e : Expr Unit} (part : y ∈ e.parts) : sizeOf y ≤ sizeOf e := by
  cases e <;> simp [Expr.parts] at part <;> grind [→ List.sizeOf_lt_of_mem, → sizeOf_of_arguments]

theorem sizeOf_of_variable {v : Variable Unit} (part : y ∈ v.parts) : sizeOf y ≤ sizeOf v := by
  cases v
  simp [Variable.parts] at part
  grind

theorem sizeOf_of_stmt {s : Stmt Unit} (part : y ∈ s.parts) : sizeOf y ≤ sizeOf s := by
  cases s <;> simp [Stmt.parts] at part <;> grind [→ List.sizeOf_lt_of_mem]

theorem sizeOf_of_member {m : Member Unit} (part : y ∈ m.parts) : sizeOf y ≤ sizeOf m := by
  cases m with
  | state v => grind [Member.parts, → sizeOf_of_variable]
  | function f =>
      obtain ⟨id, name, params, returns, attributes, modifiers, body, span⟩ := f
      cases name <;> simp [Member.parts, FunctionDef.parts, FunctionName.ident?] at part <;>
        grind [→ List.sizeOf_lt_of_mem]
  | directive u => cases u; simp [Member.parts] at part; grind [→ sizeOf_component]
  | modifier m | event m | struct m | enum m =>
      cases m
      simp [Member.parts] at part
      grind [→ List.sizeOf_lt_of_mem]

theorem sizeOf_of_node {n : Node Unit} (part : y ∈ n.parts) : sizeOf y ≤ sizeOf n := by
  cases n with
  | contract c =>
      cases c
      simp [Node.parts] at part
      grind [→ List.sizeOf_lt_of_mem]
  | pragma s | inclusion s => cases part

/-- Parts are smaller than what they are parts of. -/
theorem sizeOf_part (part : y ∈ x.parts) : sizeOf y < sizeOf x := by
  cases x with
  | ident i => cases part
  | typeName t => grind [parts, → sizeOf_of_typeName]
  | expr e => grind [parts, → sizeOf_of_expr]
  | localVariable v => grind [parts, → sizeOf_of_variable]
  | stmt s => grind [parts, → sizeOf_of_stmt]
  | member m => grind [parts, → sizeOf_of_member]
  | node n => grind [parts, → sizeOf_of_node]
  | base b =>
      obtain ⟨name, args, span⟩ := b
      cases args <;> simp [parts] at part <;> grind [→ List.sizeOf_lt_of_mem]
  | block b | parameter b | field b | invocation b =>
      cases b
      simp [parts] at part
      grind [→ List.sizeOf_lt_of_mem]

end Sizes

/-- The nodes of a tree, the parts of each in source order before the node itself. -/
def postOrder (x : Construct) : List Construct :=
  x.parts.attach.flatMap (fun y => postOrder y.1) ++ [x]
  termination_by sizeOf x
  decreasing_by exact sizeOf_part y.2

theorem postOrder_eq (x : Construct) : x.postOrder = x.parts.flatMap postOrder ++ [x] := by
  rw [postOrder, List.flatMap_subtype fun _ _ => rfl, List.unattach_attach]

/-- What holds of a node once it holds of its parts holds of every node. -/
theorem induction_parts {P : Construct → Prop} (node : ∀ x : Construct, (∀ y ∈ x.parts, P y) → P x)
    (x : Construct) : P x :=
  node x fun y _ => induction_parts node y
  termination_by sizeOf x
  decreasing_by exact sizeOf_part ‹_›

theorem mem_postOrder (x : Construct) : y ∈ x.postOrder ↔ x.Has y := by
  induction x using induction_parts with
  | node x ih =>
      rw [postOrder_eq, List.mem_append, List.mem_flatMap, List.mem_singleton]
      constructor
      · rintro (⟨z, part, inside⟩ | rfl)
        · exact .head part ((ih z part).1 inside)
        · exact .refl
      · intro stands
        rcases Relation.ReflTransGen.cases_head stands with rfl | ⟨z, part, deep⟩
        · exact .inr rfl
        · exact .inl ⟨z, part, (ih z part).2 deep⟩

/-- The expressions of a node are those among its nodes, in their order. -/
theorem filterMap_postOrder (x : Construct) : x.postOrder.filterMap expr? = x.expressions := by
  induction x using induction_parts with
  | node x ih =>
      have own : [x].filterMap expr? = x.expr?.toList := by cases x <;> rfl
      rw [postOrder_eq, expressions_eq, List.filterMap_append, List.filterMap_flatMap, own,
        List.flatMap_congr ih]

end Construct

namespace SourceUnit

/-- All nodes of a file, the parts of each before it. -/
def postOrder (u : SourceUnit Unit) : List Construct :=
  u.nodes.flatMap fun n => (Construct.node n).postOrder

theorem mem_postOrder {u : SourceUnit Unit} {x : Construct} : x ∈ u.postOrder ↔ u.Has x := by
  simp only [postOrder, List.mem_flatMap, Construct.mem_postOrder]
  rfl

theorem filterMap_postOrder (u : SourceUnit Unit) :
    u.postOrder.filterMap Construct.expr? = u.expressions := by
  rw [postOrder, List.filterMap_flatMap, expressions, contracts]
  induction u.nodes with
  | nil => rfl
  | cons n ns ih =>
      rw [List.flatMap_cons, ih, Construct.filterMap_postOrder]
      cases n <;> rfl

theorem mem_expressions_iff (u : SourceUnit Unit) {e : Expr Unit} :
    e ∈ u.expressions ↔ u.Has (.expr e) := by
  rw [← filterMap_postOrder, List.mem_filterMap]
  constructor
  · rintro ⟨x, member, same⟩
    obtain rfl : x = .expr e := by cases x <;> cases same; rfl
    exact mem_postOrder.1 member
  · exact fun stands => ⟨_, mem_postOrder.2 stands, rfl⟩

end SourceUnit
end SafeSubset
