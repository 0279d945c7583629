import SafeSubset.Proofs.Syntax.Stripped
import SafeSubset.Proofs.Typing.Declarations

/-! Typing without places. Types come from names and from other types, so a file
without places is typed as the file is. -/
namespace SafeSubset

variable {α : Type}

namespace Typing

theorem TypeNames.resolve_bare (names : TypeNames) (t : TypeName) :
    names.resolve t.bare = names.resolve t := by
  induction t with
  | elementary s t | user s p => rfl
  | mapping s k v ihk ihv => simp only [TypeName.bare, resolve, ihk, ihv]
  | array s element length ih => simp only [TypeName.bare, resolve, ih]

@[simp] theorem FileScope.resolve_bare (file : FileScope) (t : TypeName) :
    file.resolve t.bare = file.resolve t := file.names.resolve_bare t

theorem isInferred_bare (t : TypeName) : t.bare.isInferred = t.isInferred := by
  cases t with
  | user s p =>
      obtain ⟨qualifiers, name⟩ := p
      cases qualifiers <;> rfl
  | _ => rfl

theorem structDefs_stripped (u : SourceUnit α) :
    structDefs u.stripped = (structDefs u).map StructDef.stripped := by
  simp only [structDefs, SourceUnit.contracts_stripped, List.flatMap_map, List.map_flatMap,
    Contract.stripped, List.filterMap_map, List.map_filterMap]
  refine List.flatMap_congr fun c _ => List.filterMap_congr fun m _ => ?_
  cases m <;> rfl

theorem enumDefs_stripped (u : SourceUnit α) :
    enumDefs u.stripped = (enumDefs u).map EnumDef.stripped := by
  simp only [enumDefs, SourceUnit.contracts_stripped, List.flatMap_map, List.map_flatMap,
    Contract.stripped, List.filterMap_map, List.map_filterMap]
  refine List.flatMap_congr fun c _ => List.filterMap_congr fun m _ => ?_
  cases m <;> rfl

/-- What a file says about types it says without places. -/
theorem FileScope.of_stripped (u : SourceUnit α) : FileScope.of u.stripped = FileScope.of u := by
  have names : TypeNames.of u.stripped = TypeNames.of u := by
    simp only [TypeNames.of, structDefs_stripped, enumDefs_stripped, SourceUnit.contracts_stripped,
      List.map_map]
    rfl
  have fields : ∀ s : StructDef, s.stripped.fields.map
      (fun f => (f.name.text, (TypeNames.of u).resolve f.type)) =
        s.fields.map fun f => (f.name.text, (TypeNames.of u).resolve f.type) := by
    intro s
    simp [StructDef.stripped, Field.stripped, Ident.bare, TypeNames.resolve_bare, Function.comp_def]
  simp only [FileScope.of, names, structDefs_stripped, ← List.map_reverse, List.map_map,
    Function.comp_def, fields]
  rfl

theorem sameDeclarations_stripped (file : FileScope) (c : Contract α) :
    SameDeclarations file c c.stripped := by
  refine ⟨rfl, ?_, ?_, ?_⟩
  · simp [Contract.stripped, Base.stripped, Ident.bare, Function.comp_def]
  · simp only [stateTypes, Contract.stripped, List.filterMap_map]
    refine List.filterMap_congr fun m _ => ?_
    cases m <;> simp [Member.stripped, Variable.stripped, Ident.bare]
  · have type : ∀ f : FunctionDef α, returnType file f.stripped = returnType file f := by
      intro f
      unfold returnType
      rcases returns : f.returns with _ | ⟨r, _ | ⟨r', rs⟩⟩ <;>
        simp [FunctionDef.stripped, Parameter.stripped, returns]
    simp only [returnTypes, Contract.functions_stripped, List.filterMap_map]
    refine List.filterMap_congr fun f _ => ?_
    simp only [Function.comp_apply, type]
    cases name : f.name <;> simp [FunctionDef.stripped, name, FunctionName.stripped,
      FunctionName.ident?, Ident.bare]

section Expressions

variable (scope : Scope) (s : Surroundings) (locals : Locals)

@[simp] theorem type_stripped (e : Expr Ty) : e.stripped.type = e.type := e.note_stripped

theorem callType_stripped (callee : Expr Ty) :
    scope.callType callee.stripped = scope.callType callee := by
  cases callee with
  | index i base k => cases k <;> rfl
  | member i base m => simp [Expr.stripped, Scope.callType, Ident.bare]
  | _ => rfl

theorem memberType_stripped (base : Expr Ty) (m : String) :
    scope.memberType base.stripped m = scope.memberType base m := by
  simp [Scope.memberType, Expr.name_stripped]

theorem tupleType_stripped (es : List (Expr Ty)) :
    tupleType (es.map Expr.stripped) = tupleType es := by
  rcases es with _ | ⟨e, _ | ⟨e', es⟩⟩ <;> simp [tupleType]

mutual
/-- An expression has the same types without places. -/
theorem annotate_stripped : (e : Expr α) →
    annotate scope e.stripped = (annotate scope e).stripped
  | .identifier .. | .number .. | .string .. | .bool .. | .elementary .. => rfl
  | .new i t => by simp [annotate, Expr.stripped, Info.stripped]
  | .binary _ _ l r | .assign _ _ l r => by
      simp [annotate, Expr.stripped, Info.stripped, annotate_stripped l, annotate_stripped r]
  | .unary _ _ _ e | .index _ e none => by
      simp [annotate, Expr.stripped, Info.stripped, annotate_stripped e]
  | .member _ e m => by
      simp [annotate, Expr.stripped, Info.stripped, annotate_stripped e, memberType_stripped,
        Ident.bare]
  | .index _ e (some k) => by
      simp [annotate, Expr.stripped, Info.stripped, annotate_stripped e, annotate_stripped k]
  | .call _ callee args _ => by
      simp [annotate, Expr.stripped, Info.stripped, annotate_stripped callee, callType_stripped,
        annotateAll_stripped args]
  | .conditional _ c t f => by
      simp [annotate, Expr.stripped, Info.stripped, annotate_stripped c, annotate_stripped t,
        annotate_stripped f]
  | .tuple _ es => by
      have type := tupleType_stripped (annotateAll scope es)
      rw [← Expr.strippedAll_eq] at type
      simp [annotate, Expr.stripped, Info.stripped, annotateAll_stripped es, type]

theorem annotateAll_stripped : (es : List (Expr α)) →
    annotateAll scope (Expr.strippedAll es) = Expr.strippedAll (annotateAll scope es)
  | [] => rfl
  | e :: es => by
      simp [annotateAll, Expr.strippedAll, annotate_stripped e, annotateAll_stripped es]
end

@[simp] theorem expr_stripped (e : Expr α) : s.expr locals e.stripped = (s.expr locals e).stripped :=
  annotate_stripped _ e

theorem map_expr_stripped (value : Option (Expr α)) :
    (value.map Expr.stripped).map (s.expr locals) = (value.map (s.expr locals)).map Expr.stripped := by
  cases value <;> simp

theorem var_stripped (v : Variable α) : s.var locals v.stripped = (s.var locals v).stripped := by
  simp only [Surroundings.var, Variable.stripped, map_expr_stripped]

theorem localType_stripped (file : FileScope) (t : TypeName) (value : Option (Expr Ty)) :
    localType file t.bare (value.map Expr.stripped) = localType file t value := by
  unfold localType
  rw [FileScope.resolve_bare, isInferred_bare]
  cases value <;> simp

mutual
/-- A statement is typed alike without places, and makes the same variables visible. -/
theorem stmt_stripped (locals : Locals) : (st : Stmt α) →
    s.stmt locals st.stripped = ((s.stmt locals st).1.stripped, (s.stmt locals st).2)
  | .block _ body => by simp [Surroundings.stmt, Stmt.stripped, body_stripped _ body]
  | .declare _ v => by
      have type := localType_stripped s.file v.type (v.value.map (s.expr locals))
      simp only [Surroundings.stmt, Stmt.stripped, var_stripped]
      simp only [Surroundings.var, Variable.stripped, Ident.bare, type]
  | .expression _ e | .emit _ e => by simp [Surroundings.stmt, Stmt.stripped]
  | .if _ c t none => by simp [Surroundings.stmt, Stmt.stripped, stmt_stripped locals t]
  | .if _ c t (some f) => by
      simp [Surroundings.stmt, Stmt.stripped, stmt_stripped _ t, stmt_stripped _ f]
  | .while _ c b | .doWhile _ b c => by
      simp [Surroundings.stmt, Stmt.stripped, stmt_stripped _ b]
  | .for _ none c step b => by
      simp only [Surroundings.stmt, Stmt.stripped, stmt_stripped _ b, map_expr_stripped]
  | .for _ (some i) c step b => by
      simp only [Surroundings.stmt, Stmt.stripped, stmt_stripped _ i, stmt_stripped _ b,
        map_expr_stripped]
  | .return _ value => by simp only [Surroundings.stmt, Stmt.stripped, map_expr_stripped]
  | .break _ | .continue _ | .throw _ => by simp [Surroundings.stmt, Stmt.stripped]

theorem body_stripped (locals : Locals) : (body : List (Stmt α)) →
    s.body locals (Stmt.strippedAll body) = Stmt.strippedAll (s.body locals body)
  | [] => rfl
  | st :: rest => by
      simp [Surroundings.body, Stmt.strippedAll, stmt_stripped _ st, body_stripped _ rest]
end

theorem block_stripped (b : Block α) : s.block locals b.stripped = (s.block locals b).stripped := by
  simp only [Surroundings.block, Block.stripped, body_stripped]

theorem parameters_stripped (ps : List Parameter) :
    s.parameters (ps.map Parameter.stripped) = s.parameters ps := by
  unfold Surroundings.parameters
  rw [List.foldl_map]
  congr 1
  funext locals p
  cases name : p.name <;> simp [Parameter.stripped, name, Ident.bare]

theorem function_stripped (f : FunctionDef α) : s.function f.stripped = (s.function f).stripped := by
  have locals := parameters_stripped s (f.params ++ f.returns)
  rw [List.map_append] at locals
  cases body : f.body <;>
    simp [Surroundings.function, FunctionDef.stripped, locals, body, block_stripped,
      Invocation.stripped, Function.comp_def]

theorem member_stripped (m : Member α) : s.member m.stripped = (s.member m).stripped := by
  cases m with
  | state v => simp only [Member.stripped, Surroundings.member, var_stripped]
  | function f => simp only [Member.stripped, Surroundings.member, function_stripped]
  | modifier m =>
      simp only [Member.stripped, Surroundings.member, Surroundings.modifier, ModifierDef.stripped,
        parameters_stripped, block_stripped]
  | directive u | event e | struct d | enum e => rfl

theorem contractDef_stripped (c : Contract α) :
    s.contractDef c.stripped = (s.contractDef c).stripped := by
  have bases : ∀ b : Base α, s.base b.stripped = (s.base b).stripped := by
    intro b
    cases args : b.args <;> simp [Surroundings.base, Base.stripped, args, Function.comp_def]
  simp [Surroundings.contractDef, Contract.stripped, bases, member_stripped, Function.comp_def]

end Expressions
end Typing

/-- Without places a file has the types that it has with them. -/
theorem SourceUnit.annotate_stripped (u : SourceUnit α) :
    u.stripped.annotate = u.annotate.stripped := by
  have scopes : ∀ c : Contract α,
      Typing.ContractScope.of (Typing.FileScope.of u) (u.contracts.map Contract.stripped) c.stripped =
        Typing.ContractScope.of (Typing.FileScope.of u) u.contracts c := by
    intro c
    refine (Typing.contractScope_same ?_ (Typing.sameDeclarations_stripped _ c)).symm
    rw [List.forall₂_map_right_iff, List.forall₂_same]
    exact fun d _ => Typing.sameDeclarations_stripped _ d
  unfold annotate
  rw [Typing.FileScope.of_stripped, contracts_stripped]
  simp only [stripped, List.map_map]
  congr 1
  refine List.map_congr_left fun n _ => ?_
  cases n with
  | pragma s | inclusion s => rfl
  | contract c =>
      simp only [Function.comp_apply, Node.stripped, scopes, Typing.contractDef_stripped]

end SafeSubset
