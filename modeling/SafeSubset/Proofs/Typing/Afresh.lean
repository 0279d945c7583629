import SafeSubset.Proofs.Typing.Fields
import SafeSubset.Proofs.Typing.Forget

/-! Typing reads no note. What it finds depends on the syntax alone, so the types that
expressions had before are neither kept nor used, and typing twice is typing once. -/
namespace SafeSubset

open List (Forall₂)

variable {α β : Type}

/-- The enumerations that the contract itself defines, in source order. -/
def Contract.enums (c : Contract α) : List EnumDef :=
  c.members.filterMap fun
    | .enum e => some e
    | _ => none

/-- A file without the notes of its expressions. -/
def SourceUnit.forget (u : SourceUnit α) : SourceUnit Unit := u.mapRoots Expr.forget

namespace Typing

section Scopes

/-- The two contracts declare the same, whatever the expressions in them are. -/
structure SameOutline (c : Contract α) (d : Contract β) : Prop where
  structs : c.structs = d.structs
  enums : c.enums = d.enums
  declarations : ∀ file, SameDeclarations file c d

theorem sameOutline_mapRoots (f : Expr α → Expr β) (c : Contract α) : SameOutline c (c.mapRoots f) := by
  refine ⟨?_, ?_, fun file => sameDeclarations_mapRoots f file c⟩
  all_goals
    simp only [Contract.structs, Contract.enums, Contract.mapRoots, List.filterMap_map]
    refine List.filterMap_congr fun m _ => ?_
    cases m <;> rfl

variable {u : SourceUnit α} {v : SourceUnit β}

/-- What a file says about types is what its contracts declare. -/
theorem fileScope_same (same : Forall₂ SameOutline u.contracts v.contracts) :
    FileScope.of u = FileScope.of v := by
  have parts : ∀ {cs : List (Contract α)} {ds : List (Contract β)}, Forall₂ SameOutline cs ds →
      cs.flatMap Contract.structs = ds.flatMap Contract.structs ∧
        cs.flatMap Contract.enums = ds.flatMap Contract.enums ∧
        cs.map (·.name.text) = ds.map (·.name.text) := by
    intro cs ds same
    induction same with
    | nil => exact ⟨rfl, rfl, rfl⟩
    | cons own _ ih =>
        obtain ⟨structs, enums, names⟩ := ih
        have name := (own.declarations ⟨⟨[], [], []⟩, []⟩).name
        simp [own.structs, own.enums, name, structs, enums, names]
  obtain ⟨structs, enums, names⟩ := parts same
  have structs : structDefs u = structDefs v := structs
  have enums : enumDefs u = enumDefs v := enums
  have known : TypeNames.of u = TypeNames.of v := by
    rw [TypeNames.of, TypeNames.of, structs, enums, names]
  rw [FileScope.of, FileScope.of, known, structs]

/-- What a contract sees is what it and the others declare. -/
theorem surroundings_same (same : Forall₂ SameOutline u.contracts v.contracts) {c : Contract α}
    {d : Contract β} (own : SameOutline c d) :
    surroundings (FileScope.of u) u.contracts c = surroundings (FileScope.of v) v.contracts d := by
  rw [fileScope_same same]
  have declared : Forall₂ (SameDeclarations (FileScope.of v)) u.contracts v.contracts :=
    same.imp fun _ _ outline => outline.declarations _
  rw [surroundings, surroundings, contractScope_same declared (own.declarations _)]

end Scopes

section Notes

variable {scope : Scope} (s : Surroundings)

mutual
theorem annotate_forget : (e : Expr α) → annotate scope e.forget = annotate scope e
  | .identifier .. | .number .. | .string .. | .bool .. | .elementary .. | .new .. => rfl
  | .binary _ _ l r | .assign _ _ l r => by
      simp [annotate, Expr.forget, annotate_forget l, annotate_forget r]
  | .unary _ _ _ e | .member _ e _ | .index _ e none => by
      simp [annotate, Expr.forget, annotate_forget e]
  | .index _ e (some k) => by
      simp [annotate, Expr.forget, annotate_forget e, annotate_forget k]
  | .call _ callee args _ => by
      simp [annotate, Expr.forget, annotate_forget callee, annotateAll_forget args]
  | .conditional _ c t f => by
      simp [annotate, Expr.forget, annotate_forget c, annotate_forget t, annotate_forget f]
  | .tuple _ es => by simp [annotate, Expr.forget, annotateAll_forget es]

theorem annotateAll_forget : (es : List (Expr α)) →
    annotateAll scope (Expr.forgetAll es) = annotateAll scope es
  | [] => rfl
  | e :: es => by simp [annotateAll, Expr.forgetAll, annotate_forget e, annotateAll_forget es]
end

@[simp] theorem expr_forget (locals : Locals) (e : Expr α) : s.expr locals e.forget = s.expr locals e :=
  annotate_forget e

@[simp] theorem optional_forget (locals : Locals) (e : Option (Expr α)) :
    (e.map Expr.forget).map (s.expr locals) = e.map (s.expr locals) := by
  cases e <;> simp

@[simp] theorem var_forget (locals : Locals) (v : Variable α) :
    s.var locals (v.mapRoots Expr.forget) = s.var locals v := by
  simp only [Surroundings.var, Variable.mapRoots, optional_forget]

mutual
theorem stmt_forget (locals : Locals) : (st : Stmt α) →
    s.stmt locals (st.mapRoots Expr.forget) = s.stmt locals st
  | .block _ body => by simp only [Surroundings.stmt, Stmt.mapRoots, body_forget _ body]
  | .declare _ v => by
      simp only [Surroundings.stmt, Stmt.mapRoots, var_forget]
  | .expression _ e | .emit _ e => by simp only [Surroundings.stmt, Stmt.mapRoots, expr_forget]
  | .if _ c t none => by
      simp only [Surroundings.stmt, Stmt.mapRoots, expr_forget, stmt_forget locals t]
  | .if _ c t (some f) => by
      simp only [Surroundings.stmt, Stmt.mapRoots, expr_forget, stmt_forget _ t, stmt_forget _ f]
  | .while _ c b | .doWhile _ b c => by
      simp only [Surroundings.stmt, Stmt.mapRoots, expr_forget, stmt_forget _ b]
  | .for _ none c step b => by
      simp only [Surroundings.stmt, Stmt.mapRoots, optional_forget, stmt_forget _ b]
  | .for _ (some i) c step b => by
      simp only [Surroundings.stmt, Stmt.mapRoots, optional_forget, stmt_forget _ i, stmt_forget _ b]
  | .return _ value => by simp only [Surroundings.stmt, Stmt.mapRoots, optional_forget]
  | .break _ | .continue _ | .throw _ => rfl

theorem body_forget (locals : Locals) : (body : List (Stmt α)) →
    s.body locals (Stmt.mapRootsAll Expr.forget body) = s.body locals body
  | [] => rfl
  | st :: rest => by
      simp only [Surroundings.body, Stmt.mapRootsAll, stmt_forget _ st, body_forget _ rest]
end

theorem member_forget (m : Member α) : s.member (m.mapRoots Expr.forget) = s.member m := by
  cases m with
  | state v => simp only [Surroundings.member, Member.mapRoots, var_forget]
  | function f =>
      cases h : f.body <;>
        simp [Surroundings.member, Surroundings.function, Member.mapRoots, FunctionDef.mapRoots, h,
          Invocation.mapRoots, Surroundings.block, Block.mapRoots, body_forget, Function.comp_def]
  | modifier m =>
      simp only [Surroundings.member, Surroundings.modifier, Member.mapRoots, Surroundings.block,
        Block.mapRoots, body_forget]
  | directive u | event e | struct d | enum e => rfl

theorem contractDef_forget (c : Contract α) :
    s.contractDef (c.mapRoots Expr.forget) = s.contractDef c := by
  have bases : ∀ b : Base α, s.base (b.mapRoots Expr.forget) = s.base b := by
    intro b
    cases h : b.args <;> simp [Surroundings.base, Base.mapRoots, h, Function.comp_def]
  simp [Surroundings.contractDef, Contract.mapRoots, bases, member_forget, Function.comp_def]

end Notes

section Walks

/-- The second expression is the first one with its types, for some local variables. -/
def TypedIn (s : Surroundings) (e : Expr α) (d : Expr Ty) : Prop := ∃ locals, d = s.expr locals e

variable {s : Surroundings}

/-- Where each of several is related to what it becomes, so is what is in them. -/
theorem forall₂_flatMap {ε δ γ γ' : Type} {R : γ → γ' → Prop} {inner : ε → List γ}
    {inner' : δ → List γ'} {become : ε → δ} {es : List ε}
    (each : ∀ e ∈ es, Forall₂ R (inner e) (inner' (become e))) :
    Forall₂ R (es.flatMap inner) ((es.map become).flatMap inner') := by
  induction es with
  | nil => exact .nil
  | cons e es ih =>
      obtain ⟨first, others⟩ := List.forall_mem_cons.1 each
      exact List.rel_append first (ih others)

theorem typedIn_all (locals : Locals) (es : List (Expr α)) :
    Forall₂ (TypedIn s) es (es.map (s.expr locals)) :=
  List.forall₂_map_right_iff.2 (List.forall₂_same.2 fun _ _ => ⟨locals, rfl⟩)

theorem typedIn_optional (locals : Locals) (e : Option (Expr α)) :
    Forall₂ (TypedIn s) e.toList (e.map (s.expr locals)).toList := by
  rw [Option.toList_map]
  exact typedIn_all locals e.toList

mutual
/-- Typing a statement types its roots, each where it stands. -/
theorem typedIn_stmt (locals : Locals) : (st : Stmt α) →
    Forall₂ (TypedIn s) st.roots (s.stmt locals st).1.roots
  | .block _ body => typedIn_body ([] :: locals) body
  | .declare _ v => typedIn_optional locals v.value
  | .expression _ e | .emit _ e => typedIn_all locals [e]
  | .if _ _ t none => .cons ⟨locals, rfl⟩ (typedIn_stmt locals t)
  | .if _ _ t (some f) =>
      .cons ⟨locals, rfl⟩ (List.rel_append (typedIn_stmt locals t) (typedIn_stmt _ f))
  | .while _ _ b => .cons ⟨locals, rfl⟩ (typedIn_stmt locals b)
  | .doWhile _ b c => List.rel_append (typedIn_stmt locals b) (typedIn_all locals [c])
  | .for _ none c step b =>
      List.rel_append (List.rel_append (typedIn_optional _ c) (typedIn_optional _ step))
        (typedIn_stmt _ b)
  | .for _ (some i) c step b =>
      List.rel_append (List.rel_append (List.rel_append (typedIn_stmt _ i) (typedIn_optional _ c))
        (typedIn_optional _ step)) (typedIn_stmt _ b)
  | .return _ value => typedIn_optional locals value
  | .break _ | .continue _ | .throw _ => .nil

theorem typedIn_body (locals : Locals) : (body : List (Stmt α)) →
    Forall₂ (TypedIn s) (Stmt.rootsAll body) (Stmt.rootsAll (s.body locals body))
  | [] => .nil
  | st :: rest => List.rel_append (typedIn_stmt locals st) (typedIn_body _ rest)
end

theorem typedIn_member (m : Member α) : Forall₂ (TypedIn s) m.roots (s.member m).roots := by
  cases m with
  | state v => exact typedIn_optional [] v.value
  | modifier m => exact typedIn_body _ m.body.body
  | function f =>
      refine List.rel_append ?_ ?_
      · exact forall₂_flatMap fun m _ => typedIn_all _ m.args
      · cases body : f.body with
        | none => simp [Surroundings.function, body]
        | some b =>
            simp only [Surroundings.function, body, Option.map_some, Option.getD_some]
            exact typedIn_body _ b.body
  | directive u | event e | struct d | enum e => exact .nil

theorem typedIn_base (b : Base α) : Forall₂ (TypedIn s) b.roots (s.base b).roots := by
  cases args : b.args with
  | none => simp [Surroundings.base, Base.roots, args]
  | some es =>
      simp only [Surroundings.base, Base.roots, args, Option.map_some, Option.getD_some]
      exact typedIn_all [] es

/-- The parts of a typed expression are those of the expression, typed where it is. -/
theorem subexpressions_annotate (scope : Scope) (e : Expr α) :
    (annotate scope e).subexpressions = e.subexpressions.map (annotate scope) := by
  induction e using Expr.induction_children with
  | node e ih =>
      rw [Expr.subexpressions_eq, Expr.subexpressions_eq e, children_annotate, List.flatMap_map,
        List.map_append, List.map_flatMap, List.flatMap_congr ih]
      rfl

/-- The expressions of a contract are typed one by one, in the order in which they are
visited. -/
theorem typedIn_contractDef (s : Surroundings) (c : Contract α) :
    Forall₂ (TypedIn s) c.expressions (s.contractDef c).expressions := by
  have roots : Forall₂ (TypedIn s) c.roots (s.contractDef c).roots :=
    List.rel_append (forall₂_flatMap fun b _ => typedIn_base b)
      (forall₂_flatMap fun m _ => typedIn_member m)
  rw [Contract.expressions_eq, Contract.expressions_eq]
  revert roots
  generalize c.roots = es
  generalize (s.contractDef c).roots = ds
  intro roots
  induction roots with
  | nil => exact .nil
  | cons typed _ ih =>
      obtain ⟨locals, rfl⟩ := typed
      refine List.rel_append ?_ ih
      rw [Surroundings.expr, subexpressions_annotate]
      exact typedIn_all locals _

end Walks

section Files

/-- A node of a file with its types. -/
def typedNode (file : FileScope) (contracts : List (Contract α)) : Node α → Node Ty
  | .pragma span => .pragma span
  | .inclusion span => .inclusion span
  | .contract c => .contract (typed file contracts c)

theorem annotate_eq (u : SourceUnit α) :
    u.annotate = ⟨u.nodes.map (typedNode (FileScope.of u) u.contracts), u.span⟩ := rfl

/-- A file without notes is typed as the file is. -/
theorem annotate_forgotten (u : SourceUnit α) : u.forget.annotate = u.annotate := by
  have same : Forall₂ SameOutline u.contracts u.forget.contracts := by
    rw [SourceUnit.forget, SourceUnit.contracts_mapRoots, List.forall₂_map_right_iff, List.forall₂_same]
    exact fun c _ => sameOutline_mapRoots Expr.forget c
  have nodes : ∀ n : Node α,
      typedNode (FileScope.of u.forget) u.forget.contracts (n.mapRoots Expr.forget) =
        typedNode (FileScope.of u) u.contracts n := by
    intro n
    cases n with
    | pragma span | inclusion span => rfl
    | contract c =>
        simp only [Node.mapRoots, typedNode, typed, contractDef_forget,
          surroundings_same same (sameOutline_mapRoots Expr.forget c)]
  rw [annotate_eq, annotate_eq]
  simp only [SourceUnit.forget, SourceUnit.mapRoots, List.map_map, Function.comp_def] at nodes ⊢
  simp only [nodes]

theorem mapRoots_forget_typedNode (file : FileScope) (contracts : List (Contract α)) (n : Node α) :
    (typedNode file contracts n).mapRoots Expr.forget = n.mapRoots Expr.forget := by
  cases n with
  | pragma span | inclusion span => rfl
  | contract c => simp only [Node.mapRoots, typedNode, typed, mapRoots_forget_contractDef]

/-- Typing leaves everything but the notes as it is. -/
theorem forget_annotated (u : SourceUnit α) : u.annotate.forget = u.forget := by
  rw [annotate_eq]
  simp only [SourceUnit.forget, SourceUnit.mapRoots, List.map_map, Function.comp_def,
    mapRoots_forget_typedNode]

/-- Files that differ in notes alone are typed alike. -/
theorem annotate_congr {u : SourceUnit α} {v : SourceUnit β} (same : u.forget = v.forget) :
    u.annotate = v.annotate := by
  rw [← annotate_forgotten u, same, annotate_forgotten v]

theorem annotate_annotate (u : SourceUnit α) : u.annotate.annotate = u.annotate :=
  annotate_congr (forget_annotated u)

/-- Typing sets every note and nothing else. Two files that differ in notes alone become the
same, so no note is read that has not been set; apart from its notes a file stays as it is, and
typing it again changes nothing. The expressions of a file are typed one by one in the order in
which they are visited, each in the contract in which it stands. -/
theorem annotate_overwrites {u : SourceUnit α} {v : SourceUnit β} (same : u.forget = v.forget) :
    u.annotate = v.annotate ∧ u.annotate.forget = u.forget ∧ u.annotate.annotate = u.annotate ∧
      Forall₂ (fun e d => ∃ c ∈ u.contracts, e ∈ c.expressions ∧
          TypedIn (surroundings (FileScope.of u) u.contracts c) e d)
        u.expressions u.annotate.expressions := by
  refine ⟨annotate_congr same, forget_annotated u, annotate_annotate u, ?_⟩
  rw [SourceUnit.expressions, SourceUnit.expressions, contracts_annotate]
  refine forall₂_flatMap fun c member => ?_
  have typed := typedIn_contractDef (surroundings (FileScope.of u) u.contracts c) c
  exact ((List.forall₂_and_left _ _).2 ⟨fun _ inside => inside, typed⟩).imp
    fun _ _ ⟨inside, typed⟩ => ⟨c, member, inside, typed⟩

/-- The file `contract C { uint b; uint a = b + 1; }`, without its places and with one note
everywhere. -/
def noted (note : α) : SourceUnit α :=
  let uint (name : String) (value : Option (Expr α)) : Member α :=
    .state ⟨.elementary (.point 0) .uint256, ⟨name, .point 0⟩, value, .point 0⟩
  let sum := Expr.binary ⟨.point 0, note⟩ .add (.identifier ⟨.point 0, note⟩ "b")
    (.number ⟨.point 0, note⟩ "1")
  ⟨[.contract ⟨0, .contract, ⟨"C", .point 0⟩, [], [uint "b" none, uint "a" (some sum)], .point 0⟩],
    .point 0⟩

theorem annotate_overwrites_noted : (noted Ty.bool).forget = (noted Ty.unknown).forget ∧
    (noted Ty.bool).annotate = (noted Ty.unknown).annotate ∧
    (noted Ty.bool).annotate.expressions.map Expr.type = [.uint256, .rational, .uint256] :=
  ⟨rfl, (annotate_overwrites (u := noted Ty.bool) (v := noted Ty.unknown) rfl).1, by decide +kernel⟩

end Files

end Typing
end SafeSubset
