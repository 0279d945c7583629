import SafeSubset.Proofs.Checked.Tree
import SafeSubset.Proofs.Typing.Declarations
import SafeSubset.Typing.SourceUnit

/-! Typing of the tree that replaced text stands for. Every node of it has the
type that the typing rules give it where it stands, so no type changes and no
checked operation is left. -/
namespace SafeSubset.Checked

open Typing

variable {α : Type} (scope : Scope) (s : Surroundings) (locals : Locals)

theorem annotateAll_eq (es : List (Expr α)) : annotateAll scope es = es.map (annotate scope) := by
  induction es with
  | nil => rfl
  | cons e es ih => simp [annotateAll, ih]

section Calls

variable {function : String}

theorem binaryFunction_mem {i : Info Ty} {op : BinaryOp} {l r : Expr Ty} (fires : Fires (.binary i op l r)) :
    binaryFunction op ∈ ["add", "sub", "mul"] := by
  obtain ⟨-, operation⟩ := fires
  revert operation
  cases op <;> decide

theorem assignFunction_mem {i : Info Ty} {op : AssignOp} {l r : Expr Ty} (fires : Fires (.assign i op l r)) :
    assignFunction op ∈ ["add", "sub", "mul"] := by
  obtain ⟨⟩ | ⟨-, operation⟩ := fires
  revert operation
  cases op <;> decide

/-- The functions that are called are members of no object of the environment. -/
theorem environmentMember_function (object : String) (own : function ∈ ["add", "sub", "mul"]) :
    environmentMember? object function = none := by
  simp only [List.mem_cons, List.not_mem_nil, or_false] at own
  rcases own with rfl | rfl | rfl <;> (unfold environmentMember?; split <;> simp_all)

theorem memberType_function {receiver : Expr Ty} (uint : receiver.type = .uint256)
    (own : function ∈ ["add", "sub", "mul"]) : scope.memberType receiver function = .unknown := by
  have environment : (receiver.name?.bind fun object =>
      if (scope.variableType? object).isNone then environmentMember? object function else none) =
        none := by
    cases receiver.name? <;> simp [environmentMember_function _ own]
  simp only [Scope.memberType, environment, Option.getD_none, uint]
  simp only [List.mem_cons, List.not_mem_nil, or_false] at own
  rcases own with rfl | rfl | rfl <;> simp [Scope.valueMember, Ty.uint256, IntegerType.unsigned]

theorem annotate_libraryCall {i : Info Ty} {receiver argument : Expr Ty}
    (own : function ∈ ["add", "sub", "mul"]) (hr : annotate scope receiver = receiver)
    (ha : annotate scope argument = argument) (uint : receiver.type = .uint256) (hi : i.note = .uint256) :
    annotate scope (libraryCall i receiver function argument) =
      libraryCall i receiver function argument := by
  obtain ⟨span, note⟩ := i
  obtain rfl : note = .uint256 := hi
  have offered : function ∈ Scope.libraryOperations :=
    List.Sublist.subset (by decide : ["add", "sub", "mul"].Sublist Scope.libraryOperations) own
  have callType : scope.callType (.member ⟨span, .unknown⟩ receiver ⟨function, span⟩) = .uint256 := by
    simp [Scope.callType, uint, Ty.uint256, offered]
  simp [libraryCall, annotate, annotateAll, hr, ha, memberType_function scope uint own, callType]

end Calls

theorem annotate_receiverTree {l t : Expr Ty} (ht : annotate scope t = t) (same : t.type = l.type) :
    annotate scope (receiverTree l t) = receiverTree l t := by
  unfold receiverTree
  split
  · simp [annotate, annotateAll, ht, Scope.callType]
  · split
    · simp [annotate, annotateAll, ht, tupleType, same]
    · exact ht

theorem callType_tree (callee : Expr Ty) : scope.callType (tree callee) = scope.callType callee := by
  cases callee with
  | binary i op l r => unfold tree; split <;> rfl
  | assign i op l r => unfold tree; split <;> rfl
  | index i base k => cases k <;> rfl
  | member i base m => simp [tree, Scope.callType, type_tree]
  | _ => rfl

theorem memberType_tree (base : Expr Ty) (m : String) :
    scope.memberType (tree base) m = scope.memberType base m := by
  simp [Scope.memberType, type_tree]

theorem tupleType_trees (es : List (Expr Ty)) : tupleType (trees es) = tupleType es := by
  rw [trees_eq]
  cases es with
  | nil => rfl
  | cons e es => cases es <;> simp [tupleType, type_tree]

theorem annotateAll_trees {es : List (Expr α)}
    (h : ∀ e ∈ es, annotate scope (tree (annotate scope e)) = tree (annotate scope e)) :
    annotateAll scope (trees (annotateAll scope es)) = trees (annotateAll scope es) := by
  simpa [annotateAll_eq, trees_eq] using h

/-- Typing the tree of a typed expression changes nothing. -/
theorem annotate_tree (e : Expr α) :
    annotate scope (tree (annotate scope e)) = tree (annotate scope e) := by
  induction e using Expr.induction_children with
  | node e ih =>
    cases e with
    | binary i op l r =>
        have hl := ih l (by simp [Expr.children])
        have hr := ih r (by simp [Expr.children])
        simp only [annotate, tree]
        split
        · next fires =>
          exact annotate_libraryCall scope (binaryFunction_mem fires)
            (annotate_receiverTree scope hl (type_tree _)) hr (type_receiverTree _) fires.note
        · simp [annotate, hl, hr, type_tree]
    | assign i op l r =>
        have hl := ih l (by simp [Expr.children])
        have hr := ih r (by simp [Expr.children])
        simp only [annotate, tree]
        split
        · next fires =>
          have uint := (type_tree _).trans fires.target
          have called := annotate_libraryCall scope (i := ⟨i.span, .uint256⟩) (assignFunction_mem fires)
            hl hr uint rfl
          simp only [annotate, hl, called, type_tree]
        · simp [annotate, hl, hr, type_tree]
    | unary i op fixity e =>
        simp [annotate, tree, ih e (by simp [Expr.children]), type_tree]
    | call i callee args names =>
        have hargs := annotateAll_trees scope fun a ha => ih a (List.mem_cons_of_mem _ ha)
        simp [annotate, tree, hargs, ih callee (by simp [Expr.children]), callType_tree]
    | member i base m =>
        simp [annotate, tree, ih base (by simp [Expr.children]), memberType_tree]
    | index i base k =>
        cases k with
        | none => simp [annotate, tree, ih base (by simp [Expr.children]), type_tree]
        | some k =>
            simp [annotate, tree, ih base (by simp [Expr.children]), ih k (by simp [Expr.children]),
              type_tree]
    | conditional i c t f =>
        simp [annotate, tree, ih c (by simp [Expr.children]), ih t (by simp [Expr.children]),
          ih f (by simp [Expr.children]), type_tree]
    | tuple i es =>
        have hes : annotateAll scope (trees (annotateAll scope es)) = trees (annotateAll scope es) :=
          annotateAll_trees scope ih
        simp [annotate, tree, hes, tupleType_trees]
    | identifier | number | string | bool | elementary | new => rfl

theorem expr_tree (e : Expr α) : s.expr locals (tree (s.expr locals e)) = tree (s.expr locals e) :=
  annotate_tree (s.scope locals) e

theorem optional_tree (e : Option (Expr α)) :
    ((e.map (s.expr locals)).map tree).map (s.expr locals) = (e.map (s.expr locals)).map tree := by
  cases e <;> simp [expr_tree]

theorem localType_tree (file : FileScope) (t : TypeName) (value : Option (Expr Ty)) :
    localType file t (value.map tree) = localType file t value := by
  cases value <;> simp [localType, type_tree]

theorem var_tree (v : Variable α) :
    s.var locals ((s.var locals v).mapRoots tree) = (s.var locals v).mapRoots tree := by
  simp only [Surroundings.var, Variable.mapRoots, optional_tree]

mutual
/-- Typing the trees of a typed statement changes nothing, and gives the same
variables to what follows. -/
theorem stmt_tree (locals : Locals) : (st : Stmt α) →
    s.stmt locals ((s.stmt locals st).1.mapRoots tree) =
      ((s.stmt locals st).1.mapRoots tree, (s.stmt locals st).2)
  | .block _ body => by
      simp [Surroundings.stmt, Stmt.mapRoots, body_tree ([] :: locals) body]
  | .declare _ v => by
      have value : ((s.var locals v).mapRoots tree).value = (s.var locals v).value.map tree := rfl
      simp only [Surroundings.stmt, Stmt.mapRoots, var_tree, value, localType_tree]
      rfl
  | .expression _ e | .emit _ e => by simp [Surroundings.stmt, Stmt.mapRoots, expr_tree]
  | .if _ c t none => by
      simp [Surroundings.stmt, Stmt.mapRoots, expr_tree, stmt_tree locals t]
  | .if _ c t (some f) => by
      simp [Surroundings.stmt, Stmt.mapRoots, expr_tree, stmt_tree locals t, stmt_tree _ f]
  | .while _ c b | .doWhile _ b c => by
      simp [Surroundings.stmt, Stmt.mapRoots, expr_tree, stmt_tree locals b]
  | .for _ none c step b => by
      simp only [Surroundings.stmt, Stmt.mapRoots, optional_tree, stmt_tree _ b]
  | .for _ (some i) c step b => by
      simp only [Surroundings.stmt, Stmt.mapRoots, optional_tree, stmt_tree _ i, stmt_tree _ b]
  | .return _ value => by simp only [Surroundings.stmt, Stmt.mapRoots, optional_tree]
  | .break _ | .continue _ | .throw _ => by simp [Surroundings.stmt, Stmt.mapRoots]

theorem body_tree (locals : Locals) : (ss : List (Stmt α)) →
    s.body locals (Stmt.mapRootsAll tree (s.body locals ss)) =
      Stmt.mapRootsAll tree (s.body locals ss)
  | [] => by simp [Surroundings.body, Stmt.mapRootsAll]
  | st :: ss => by
      simp [Surroundings.body, Stmt.mapRootsAll, stmt_tree locals st, body_tree _ ss]
end

theorem block_tree (b : Block α) :
    s.block locals ((s.block locals b).mapRoots tree) = (s.block locals b).mapRoots tree := by
  simp [Surroundings.block, Block.mapRoots, body_tree]

theorem function_tree (f : FunctionDef α) :
    s.function ((s.function f).mapRoots tree) = (s.function f).mapRoots tree := by
  cases h : f.body <;>
    simp [Surroundings.function, FunctionDef.mapRoots, Invocation.mapRoots, h, block_tree, expr_tree]

theorem member_tree (m : Member α) :
    s.member ((s.member m).mapRoots tree) = (s.member m).mapRoots tree := by
  cases m with
  | state v => simp [Surroundings.member, Member.mapRoots, var_tree]
  | function f => simp [Surroundings.member, Member.mapRoots, function_tree]
  | modifier m => simp [Surroundings.member, Member.mapRoots, Surroundings.modifier, block_tree]
  | _ => rfl

theorem base_tree (b : Base α) : s.base ((s.base b).mapRoots tree) = (s.base b).mapRoots tree := by
  cases h : b.args <;> simp [Surroundings.base, Base.mapRoots, h, expr_tree]

theorem contractDef_tree (c : Contract α) :
    s.contractDef (contractTree (s.contractDef c)) = contractTree (s.contractDef c) := by
  simp [Surroundings.contractDef, contractTree, Contract.mapRoots, base_tree, member_tree]

/-- What becomes of a contract of a file: one that attaches the library itself
stays as it is. -/
def hardenedTree (file : FileScope) (contracts : List (Contract α)) (c : Contract α) :
    Contract Ty :=
  if Attaches (typed file contracts c) then typed file contracts c
  else contractTree (typed file contracts c)

theorem sameDeclarations_hardenedTree (file : FileScope) (contracts : List (Contract α))
    (c : Contract α) : SameDeclarations file c (hardenedTree file contracts c) := by
  have own := sameDeclarations_contractDef (surroundings file contracts c) file c
  unfold hardenedTree
  split
  · exact own
  · exact own.trans (sameDeclarations_mapRoots tree file _)

/-- Typing a contract again after its operations have been replaced, in the same
file, changes no type: each expression's tree has the expression's type, every
call put in has a receiver of the checked type, and nothing is left to replace. -/
theorem contractTree_typed (file : FileScope) (contracts : List (Contract α)) (c : Contract α) :
    let before := typed file contracts c
    let after := contractTree before
    typed file (contracts.map (hardenedTree file contracts)) after = after ∧
    (∀ e ∈ before.expressions, tree e ∈ after.expressions ∧ (tree e).type = e.type) ∧
    (∀ i op l r, .binary i op l r ∈ before.expressions → Fires (.binary i op l r) →
      tree (.binary i op l r) =
          libraryCall i (receiverTree l (tree l)) (binaryFunction op) (tree r) ∧
        (receiverTree l (tree l)).type = .uint256) ∧
    (∀ i op l r, .assign i op l r ∈ before.expressions → Fires (.assign i op l r) →
      tree (.assign i op l r) =
          .assign i .assign (tree l)
            (libraryCall ⟨i.span, .uint256⟩ (tree l) (assignFunction op) (tree r)) ∧
        (tree l).type = .uint256) ∧
    ∀ e ∈ after.expressions, ¬ Fires e ∧ operation? e = none := by
  intro before after
  have roots : after.roots = before.roots.map tree := before.roots_mapRoots tree
  refine ⟨?_, fun e he => ⟨?_, type_tree e⟩, ?_, ?_, fun d hd => ?_⟩
  · have scopes : ContractScope.of file contracts c =
        ContractScope.of file (contracts.map (hardenedTree file contracts)) after := by
      refine contractScope_same ?_ ?_
      · exact List.forall₂_map_right_iff.2
          (List.forall₂_same.2 fun d _ => sameDeclarations_hardenedTree file contracts d)
      · exact (sameDeclarations_contractDef _ file c).trans
          (sameDeclarations_mapRoots tree file before)
    have again := contractDef_tree (surroundings file contracts c) c
    show (Surroundings.mk file _).contractDef after = after
    rw [← scopes]
    exact again
  · obtain ⟨root, hroot, inside⟩ := List.mem_flatMap.1 (before.expressions_eq ▸ he)
    rw [after.expressions_eq, roots]
    exact List.mem_flatMap.2 ⟨tree root, List.mem_map_of_mem hroot, tree_mem root e inside⟩
  · intro i op l r _ fires
    exact ⟨by rw [tree, if_pos fires], type_receiverTree l⟩
  · intro i op l r _ fires
    exact ⟨by rw [tree, if_pos fires], (type_tree l).trans fires.target⟩
  · rw [after.expressions_eq, roots] at hd
    obtain ⟨_, hroot, inside⟩ := List.mem_flatMap.1 hd
    obtain ⟨root, _, rfl⟩ := List.mem_map.1 hroot
    have none := operation_tree root d inside
    exact ⟨operation_none_iff.1 none, none⟩

end SafeSubset.Checked
