import SafeSubset.Proofs.Checked.Tree
import SafeSubset.Proofs.Checked.Trivia
import SafeSubset.Proofs.Typing.Scoping

/-! An update of a variable in its two spellings, as a compound assignment and as an assignment of
what it computes. The compound assignment is checked by the type of its left side and the
operation by that of its result, so there are types for which only one of them is checked. -/
namespace SafeSubset

variable {α : Type}

/-- Whether an operand of the type widens to the checked type: a number literal, or an unsigned
integer of no more bits. -/
def Ty.Widens (t : Ty) : Prop := t = .rational ∨ ∃ bits ≤ 256, t = .integer (.unsigned bits)

namespace Ty

theorem widens_integer {i : IntegerType} :
    (integer i).Widens ↔ i.signed = false ∧ i.address = false ∧ i.bits ≤ 256 := by
  constructor
  · rintro (same | ⟨bits, few, same⟩)
    · cases same
    · cases same
      exact ⟨rfl, rfl, few⟩
  · obtain ⟨bits, signed, address⟩ := i
    rintro ⟨rfl, rfl, few⟩
    exact .inr ⟨bits, few, rfl⟩

theorem integer_eq_uint256 {i : IntegerType} :
    integer i = uint256 ↔ i.signed = false ∧ i.address = false ∧ i.bits = 256 := by
  obtain ⟨bits, signed, address⟩ := i
  simp only [uint256, IntegerType.unsigned, integer.injEq, IntegerType.mk.injEq]
  tauto

theorem widens_uint256 : uint256.Widens := .inr ⟨256, Nat.le_refl 256, rfl⟩

/-- Two operands make the checked type together if one has it and the other one widens to it. -/
theorem join_eq_uint256 {a b : Ty} : a.join b = .uint256 ↔
    (a = .uint256 ∧ b.Widens) ∨ (b = .uint256 ∧ a.Widens) := by
  by_cases same : a = b
  · subst same
    unfold join
    rw [if_pos rfl, or_self]
    exact ⟨fun here => ⟨here, here ▸ widens_uint256⟩, And.left⟩
  unfold join
  rw [if_neg same]
  cases a with
  | integer i =>
      cases b with
      | integer j =>
          simp only [widens_integer, integer_eq_uint256]
          split
          · next alike =>
              rw [integer_eq_uint256]
              grind
          · next other =>
              simp only [uint256, reduceCtorEq, false_iff]
              grind
      | _ => simp [Widens, uint256]
  | _ => cases b <;> simp [Widens, uint256]

end Ty

namespace Checked

open Typing

namespace Operation

def binaryOp : Operation → BinaryOp
  | add => .add
  | subtract => .subtract
  | multiply => .multiply

/-- The compound assignment that does the operation. -/
def assignOp : Operation → AssignOp
  | add => .add
  | subtract => .subtract
  | multiply => .multiply

theorem ofBinary_binaryOp (o : Operation) : ofBinary? o.binaryOp = some o := by
  cases o <;> rfl

theorem ofAssign_assignOp (o : Operation) : ofAssign? o.assignOp = some o := by
  cases o <;> rfl

theorem resultType_binaryOp (o : Operation) (a b : Ty) : o.binaryOp.resultType a b = a.join b := by
  cases o <;> rfl

end Operation

/-- An update of `l` by `r`, with what its parts carry in either spelling. -/
structure Update (α : Type) where
  operation : Operation
  l : Expr α
  r : Expr α
  whole : Info α
  inner : Info α
  parens : Info α

namespace Update

/-- The spelling `l op= r`. -/
def compound (x : Update α) : Expr α := .assign x.whole x.operation.assignOp x.l x.r

/-- The operation `l op (r)`. -/
def computed (x : Update α) : Expr α :=
  .binary x.inner x.operation.binaryOp x.l (.tuple x.parens [x.r])

/-- The spelling `l = l op (r)`. -/
def expanded (x : Update α) : Expr α := .assign x.whole .assign x.l x.computed

/-- The two updates are the same but for places. -/
structure Alike (x y : Update α) : Prop where
  operation : x.operation = y.operation
  l : x.l.stripped = y.l.stripped
  r : x.r.stripped = y.r.stripped

theorem Alike.symm {x y : Update α} (alike : x.Alike y) : y.Alike x :=
  ⟨alike.operation.symm, alike.l.symm, alike.r.symm⟩

/-- The left side has the checked type, and the right side does not widen to it. -/
def OnlyCompound (scope : Scope) (x : Update α) : Prop :=
  (annotate scope x.l).type = .uint256 ∧ ¬ (annotate scope x.r).type.Widens

/-- The right side has the checked type, and the left side widens to it from another one. -/
def OnlyComputed (scope : Scope) (x : Update α) : Prop :=
  (annotate scope x.l).type ≠ .uint256 ∧ (annotate scope x.l).type.Widens ∧
    (annotate scope x.r).type = .uint256

end Update

/-- Visiting the expression replaces it. -/
def Replaces (source : Source) (p : Progress) (e : Expr Ty) : Prop := visit source p e ≠ p

/-- The number of checked operations in an expression. -/
def checkedCount (e : Expr Ty) : Nat := e.subexpressions.countP fun d => (operation? d).isSome

section Nodes

variable (scope : Scope) (x : Update α)

theorem replaces_iff {source : Source} {p : Progress} {e : Expr Ty} :
    Replaces source p e ↔ (operation? e).isSome = true := by
  unfold Replaces visit
  cases fires : operation? e with
  | none => simp
  | some op =>
      simp only [Option.isSome_some, iff_true]
      intro same
      exact Nat.succ_ne_self p.operations (congrArg Progress.operations same)

theorem operation_compound : operation? (annotate scope x.compound) =
    if (annotate scope x.l).type.isChecked then some x.operation else none := by
  show (if _ then Operation.ofAssign? x.operation.assignOp else none) = _
  rw [Operation.ofAssign_assignOp]

theorem operation_computed : operation? (annotate scope x.computed) =
    if ((annotate scope x.l).type.join (annotate scope x.r).type).isChecked then some x.operation
    else none := by
  show (if Ty.isChecked (BinaryOp.resultType x.operation.binaryOp _ (annotate scope x.r).type)
    then Operation.ofBinary? x.operation.binaryOp else none) = _
  rw [Operation.resultType_binaryOp, Operation.ofBinary_binaryOp]

theorem compound_checked : (operation? (annotate scope x.compound)).isSome = true ↔
    (annotate scope x.l).type = .uint256 := by
  rw [operation_compound, ← isChecked_iff]
  split <;> simp [*]

theorem computed_checked : (operation? (annotate scope x.computed)).isSome = true ↔
    (annotate scope x.l).type.join (annotate scope x.r).type = .uint256 := by
  rw [operation_computed, ← isChecked_iff]
  split <;> simp [*]

/-- Only the compound assignment is checked. -/
theorem only_compound : x.OnlyCompound scope ↔
    (operation? (annotate scope x.compound)).isSome = true ∧
      ¬ (operation? (annotate scope x.computed)).isSome = true := by
  rw [compound_checked, computed_checked, Ty.join_eq_uint256, Update.OnlyCompound]
  refine and_congr_right fun left => not_congr ⟨fun right => .inl ⟨left, right⟩, ?_⟩
  rintro (⟨-, right⟩ | ⟨right, -⟩)
  · exact right
  · exact right ▸ Ty.widens_uint256

/-- Only the operation is checked. -/
theorem only_computed : x.OnlyComputed scope ↔
    ¬ (operation? (annotate scope x.compound)).isSome = true ∧
      (operation? (annotate scope x.computed)).isSome = true := by
  rw [compound_checked, computed_checked, Ty.join_eq_uint256, Update.OnlyComputed]
  refine and_congr_right fun other => ⟨fun ⟨left, right⟩ => .inr ⟨right, left⟩, ?_⟩
  rintro (⟨left, -⟩ | ⟨right, left⟩)
  · exact absurd left other
  · exact ⟨left, right⟩

/-- An update is treated alike in both spellings, but where only one of them is checked. -/
theorem replaced_alike (source : Source) (p : Progress) :
    (Replaces source p (annotate scope x.compound) ↔
        Replaces source p (annotate scope x.computed)) ↔
      ¬ x.OnlyCompound scope ∧ ¬ x.OnlyComputed scope := by
  rw [only_compound, only_computed, replaces_iff, replaces_iff]
  tauto

theorem checkedCount_eq (e : Expr Ty) : checkedCount e =
    (e.children.flatMap Expr.subexpressions).countP (fun d => (operation? d).isSome) +
      (operation? e).isSome.toNat := by
  have one : ∀ b : Bool, (if b = true then 1 else 0) = b.toNat := by decide
  rw [checkedCount, Expr.subexpressions_eq, List.countP_append, List.countP_singleton, one]

theorem checkedCount_compound : checkedCount (annotate scope x.compound) =
    checkedCount (annotate scope x.l) + checkedCount (annotate scope x.r) +
      (operation? (annotate scope x.compound)).isSome.toNat := by
  rw [checkedCount_eq]
  simp [Update.compound, annotate, Expr.children, checkedCount]

theorem checkedCount_computed : checkedCount (annotate scope x.computed) =
    checkedCount (annotate scope x.l) + checkedCount (annotate scope x.r) +
      (operation? (annotate scope x.computed)).isSome.toNat := by
  have parens : checkedCount (annotate scope (.tuple x.parens [x.r])) =
      checkedCount (annotate scope x.r) := by
    rw [checkedCount_eq]
    simp [annotate, annotateAll, Expr.children, operation?, checkedCount]
  rw [← parens, checkedCount_eq]
  simp [Update.computed, annotate, Expr.children, checkedCount]

theorem checkedCount_expanded : checkedCount (annotate scope x.expanded) =
    checkedCount (annotate scope x.l) + checkedCount (annotate scope x.computed) := by
  have none : operation? (annotate scope x.expanded) = none := ite_self _
  rw [checkedCount_eq, none]
  simp [Update.expanded, annotate, Expr.children, checkedCount]

/-- Places have no part in what is checked. -/
theorem computed_alike {x y : Update α} (alike : x.Alike y) :
    operation? (annotate scope x.computed) = operation? (annotate scope y.computed) := by
  have type : ∀ {e d : Expr α}, e.stripped = d.stripped →
      (annotate scope e).type = (annotate scope d).type := by
    intro e d same
    rw [← type_stripped, ← annotate_stripped, same, annotate_stripped, type_stripped]
  rw [operation_computed, operation_computed, alike.operation, type alike.l, type alike.r]

theorem checkedCount_alike {e d : Expr α} (same : e.stripped = d.stripped) :
    checkedCount (annotate scope e) = checkedCount (annotate scope d) := by
  have strip : ∀ e : Expr Ty, checkedCount e.stripped = checkedCount e := by
    intro e
    rw [checkedCount, Expr.subexpressions_stripped, List.countP_map]
    simp only [Function.comp_def, operation_stripped, checkedCount]
  rw [← strip, ← annotate_stripped, same, annotate_stripped, strip]

/-- The expanded spelling has the checked operations of the compound one and those of the left
side once more, but where only one of them is checked. -/
theorem checkedCount_update {x y : Update α} (alike : x.Alike y) :
    checkedCount (annotate scope y.expanded) =
        checkedCount (annotate scope x.compound) + checkedCount (annotate scope x.l) ↔
      ¬ x.OnlyCompound scope ∧ ¬ x.OnlyComputed scope := by
  rw [checkedCount_expanded, checkedCount_computed, checkedCount_compound,
    computed_alike scope alike.symm, checkedCount_alike scope alike.l.symm,
    checkedCount_alike scope alike.r.symm, only_compound, only_computed]
  cases (operation? (annotate scope x.compound)).isSome <;>
    cases (operation? (annotate scope x.computed)).isSome <;> simp <;> omega

end Nodes

section Contracts

/-- A contract of a file with its types, where a statement of a body is the expression. -/
def contractWith (p : BodyPlace α) (g : Gap α) (span : Span) (e : Expr α) : Contract Ty :=
  (typedPlace p).whole ((typedGap p g).fill (.expression span (annotate (scopeAt p g) e)))

variable (p : BodyPlace α) (g : Gap α) (span : Span)

theorem attachesLibrary_whole (p : BodyPlace Ty) (body : List (Stmt Ty)) :
    attachesLibrary (p.whole body) = attachesLibrary (p.whole []) := by
  simp only [attachesLibrary, Contract.directives, BodyPlace.whole, List.filterMap_append,
    List.filterMap_cons]
  cases p.header <;> rfl

theorem operationCount_contractWith : ∃ others, ∀ e : Expr α,
    operationCount (contractWith p g span e) = others + checkedCount (annotate (scopeAt p g) e) := by
  obtain ⟨before, after, inner⟩ := (typedPlace p).expressions_whole (typedGap p g)
  let count (es : List (Expr Ty)) : Nat := es.countP fun d => (operation? d).isSome
  refine ⟨count before + count after, fun e => ?_⟩
  rw [operationCount, contractWith, inner, List.countP_append, List.countP_append,
    Nat.add_right_comm]
  rfl

/-- The contract with the body attaches no library, and the file defines none. -/
def Rewritable (p : BodyPlace Ty) : Prop :=
  attachesLibrary (p.whole []) = false ∧
    ∀ c ∈ (p.fill []).contracts, isLibraryName c.name.text = false

/-- What happens to a contract that attaches no library and has some checked operations. -/
def countedStatus (n : Nat) : Status := if n = 0 then .unchanged else .rewritten n

theorem operations_countedStatus (n : Nat) : (countedStatus n).operations = n := by
  unfold countedStatus
  split
  · next none => exact none.symm
  · rfl

theorem report_congr (source : Source) {u v : SourceUnit α} (same : u.stripped = v.stripped) :
    (harden source u.annotate).report = (harden source v.annotate).report := by
  rw [← harden_report_stripped source source, ← SourceUnit.annotate_stripped, same,
    SourceUnit.annotate_stripped, harden_report_stripped]

/-- The report on a file where a statement of a body is an expression. -/
theorem report_expression (rewritable : Rewritable (typedPlace p)) :
    ∃ (before after : List ContractReport) (others : Nat), ∀ (e : Expr α) (source : Source)
      (u : SourceUnit α), u.stripped = (p.fill (g.fill (.expression span e))).stripped →
        (harden source u.annotate).report.contracts = before ++ ⟨p.contract.name.text,
          countedStatus (others + checkedCount (annotate (scopeAt p g) e))⟩ :: after := by
  obtain ⟨attaches, undefined⟩ := rewritable
  obtain ⟨others, count⟩ := operationCount_contractWith p g span
  let reports (cs : List (Contract Ty)) : List ContractReport :=
    cs.map fun c => ⟨c.name.text, statusOf c⟩
  refine ⟨reports (SourceUnit.mk (typedPlace p).before p.span).contracts,
    reports (SourceUnit.mk (typedPlace p).after p.span).contracts, others, ?_⟩
  intro e source u same
  have contracts : (p.fill (g.fill (.expression span e))).annotate.contracts =
      (SourceUnit.mk (typedPlace p).before p.span).contracts ++ contractWith p g span e ::
        (SourceUnit.mk (typedPlace p).after p.span).contracts := by
    rw [annotate_expression, BodyPlace.contracts_fill]
    rfl
  have none : ((p.fill (g.fill (.expression span e))).annotate.contracts.any
      fun c => isLibraryName c.name.text) = false := by
    have empty := List.any_eq_false.2 fun c inside => Bool.not_eq_true _ ▸ undefined c inside
    rw [BodyPlace.contracts_fill, List.any_append, List.any_cons] at empty
    rw [contracts, List.any_append, List.any_cons]
    exact empty
  have status : statusOf (contractWith p g span e) =
      countedStatus (others + checkedCount (annotate (scopeAt p g) e)) := by
    rw [statusOf, contractWith, attachesLibrary_whole, attaches, ← contractWith, count]
    rfl
  rw [report_congr source same, harden_report, none, contracts]
  simp only [Bool.false_eq_true, if_false, List.map_append, List.map_cons, status, reports]
  rfl

/-- An update is checked in both spellings or in neither, apart from two cases. Where the left
side has the checked type and the right side does not widen to it, only the compound assignment
is; where the right side has it and the left side widens to it from another type, only the
operation is. So in a contract that attaches no library the same is replaced for both spellings,
but for what is in the left side, which is written once more. -/
theorem update_checked {x y : Update α} (alike : x.Alike y) :
    (∀ (scope : Scope) (source : Source) (q : Progress),
      ((Replaces source q (annotate scope x.compound) ↔
          Replaces source q (annotate scope y.computed)) ↔
        ¬ x.OnlyCompound scope ∧ ¬ x.OnlyComputed scope) ∧
      (x.OnlyCompound scope → Replaces source q (annotate scope x.compound) ∧
        ¬ Replaces source q (annotate scope y.computed)) ∧
      (x.OnlyComputed scope → ¬ Replaces source q (annotate scope x.compound) ∧
        Replaces source q (annotate scope y.computed))) ∧
    ∀ (p : BodyPlace α) (g : Gap α) (span : Span), Rewritable (typedPlace p) →
      ∃ (before after : List ContractReport) (compound expanded : Status),
        (∀ (source : Source) (u : SourceUnit α),
          u.stripped = (p.fill (g.fill (.expression span x.compound))).stripped →
            (harden source u.annotate).report.contracts =
              before ++ ⟨p.contract.name.text, compound⟩ :: after) ∧
        (∀ (source : Source) (u : SourceUnit α),
          u.stripped = (p.fill (g.fill (.expression span y.expanded))).stripped →
            (harden source u.annotate).report.contracts =
              before ++ ⟨p.contract.name.text, expanded⟩ :: after) ∧
        (expanded.operations =
            compound.operations + checkedCount (annotate (scopeAt p g) x.l) ↔
          ¬ x.OnlyCompound (scopeAt p g) ∧ ¬ x.OnlyComputed (scopeAt p g)) := by
  refine ⟨fun scope source q => ?_, fun p g span rewritable => ?_⟩
  · rw [replaces_iff (e := annotate scope y.computed), ← computed_alike scope alike, ← replaces_iff]
    refine ⟨replaced_alike scope x source q, fun only => ?_, fun only => ?_⟩
    · rw [replaces_iff, replaces_iff]
      exact (only_compound scope x).1 only
    · rw [replaces_iff, replaces_iff]
      exact (only_computed scope x).1 only
  · obtain ⟨before, after, others, reports⟩ := report_expression p g span rewritable
    refine ⟨before, after, _, _, reports x.compound, reports y.expanded, ?_⟩
    rw [operations_countedStatus, operations_countedStatus,
      ← checkedCount_update (scopeAt p g) alike]
    omega

/-- The place of the body in `contract C { function f(uint256 a, uint8 b) { } }`. -/
def narrowPlace : BodyPlace Unit :=
  let parameter (name : String) (bits : Nat) : Parameter :=
    ⟨.elementary (.point 0) (.integer (.unsigned bits)), some ⟨name, .point 0⟩, .point 0⟩
  let f : FunctionDef Unit :=
    { id := 0, name := .named ⟨"f", .point 0⟩, params := [parameter "a" 256, parameter "b" 8],
      returns := [], attributes := [], modifiers := [], body := none, span := .point 0 }
  { before := []
    contract := ⟨0, .contract, ⟨"C", .point 0⟩, [], [], .point 0⟩
    first := []
    header := .function f (.point 0)
    rest := []
    after := []
    span := .point 0 }

/-- The update of `a` by `b`, with all its parts in one place. -/
def updateAt (place : Nat) : Update Unit :=
  let info : Info Unit := ⟨.point place, ()⟩
  ⟨.add, .identifier info "a", .identifier info "b", info, info, info⟩

/-- An integer of fewer bits is added to one of the checked type, in either spelling. -/
theorem update_checked_narrow : (updateAt 0).Alike (updateAt 1) ∧
    Rewritable (typedPlace narrowPlace) ∧
    (∀ source q,
      Replaces source q (annotate (scopeAt narrowPlace ⟨[], .here, []⟩) (updateAt 0).compound) ↔
        Replaces source q (annotate (scopeAt narrowPlace ⟨[], .here, []⟩) (updateAt 1).computed)) ∧
    ∃ compound expanded : Status, compound.operations = expanded.operations ∧
      (∀ source, ⟨"C", compound⟩ ∈ (harden source
        (narrowPlace.fill [.expression (.point 0) (updateAt 0).compound]).annotate).report.contracts) ∧
      ∀ source, ⟨"C", expanded⟩ ∈ (harden source
        (narrowPlace.fill [.expression (.point 1) (updateAt 1).expanded]).annotate).report.contracts := by
  have alike : (updateAt 0).Alike (updateAt 1) := ⟨rfl, rfl, rfl⟩
  have rewritable : Rewritable (typedPlace narrowPlace) := by
    unfold Rewritable
    decide +kernel
  have neither : ¬ (updateAt 0).OnlyCompound (scopeAt narrowPlace ⟨[], .here, []⟩) ∧
      ¬ (updateAt 0).OnlyComputed (scopeAt narrowPlace ⟨[], .here, []⟩) :=
    ⟨fun only => only.2 (.inr ⟨8, by decide, by decide +kernel⟩),
      fun only => only.1 (by decide +kernel)⟩
  obtain ⟨nodes, files⟩ := update_checked alike
  obtain ⟨before, after, compound, expanded, first, second, same⟩ :=
    files narrowPlace ⟨[], .here, []⟩ (.point 0) rewritable
  refine ⟨alike, rewritable, fun source q => (nodes _ source q).1.2 neither, compound, expanded,
    ?_, ?_, ?_⟩
  · exact (same.2 neither).symm
  · intro source
    have report := first source (narrowPlace.fill [.expression (.point 0) (updateAt 0).compound]) rfl
    exact report ▸ List.mem_append_right before List.mem_cons_self
  · intro source
    have report := second source (narrowPlace.fill [.expression (.point 1) (updateAt 1).expanded]) rfl
    exact report ▸ List.mem_append_right before List.mem_cons_self

/-- A file with one update of `a` by `b`, which have the given types. -/
def updateSource (left right update : String) : Source :=
  ("contract C \x7b function f(" ++ left ++ " a, " ++ right ++ " b) \x7b " ++ update ++
    " \x7d \x7d").toList

/-- What is reported on the only contract of a file. -/
def ReportedAs (source : Source) (status : Status) : Prop :=
  ∃ u, source.front = .ok u ∧ (harden source u).report.contracts = [⟨"C", status⟩]

theorem reportedAs_of_front {source : Source} {status : Status}
    (found : source.front.toOption.any
      (fun u => decide ((harden source u).report.contracts = [⟨"C", status⟩])) = true) :
    ReportedAs source status := by
  obtain ⟨u, accepted, reported⟩ := exists_of_any found
  exact ⟨u, accepted, of_decide_eq_true reported⟩

/-- For a signed right side only the compound assignment is checked, and for a left side of fewer
bits than the right one only the operation. -/
theorem update_checked_signed :
    (ReportedAs (updateSource "uint256" "int256" "a += b;") (.rewritten 1) ∧
      ReportedAs (updateSource "uint256" "int256" "a = a + (b);") .unchanged) ∧
    ReportedAs (updateSource "uint8" "uint256" "a += b;") .unchanged ∧
      ReportedAs (updateSource "uint8" "uint256" "a = a + (b);") (.rewritten 1) := by
  refine ⟨⟨?_, ?_⟩, ?_, ?_⟩ <;> exact reportedAs_of_front (by decide +kernel)

end Contracts

end Checked
end SafeSubset
