import SafeSubset.Proofs.Grammar.Spans
import SafeSubset.Proofs.Syntax.Listing

/-! The order of expressions by their spans. A file's expressions are listed as they
end; of two that end together, the inner one comes first. They are the expressions among all
nodes of the file, each of which is visited once, behind what stands in it. -/
namespace SafeSubset

open Token (Spaced lexemes)

variable {α : Type}

/-- One span ends before another, or ends with it and starts behind it. -/
def Span.EndsBefore (a b : Span) : Prop := a.stop < b.stop ∨ a.stop = b.stop ∧ b.start < a.start

theorem Span.EndsBefore.asymm {a b : Span} (h : a.EndsBefore b) : ¬ b.EndsBefore a := by
  unfold EndsBefore at *
  omega

namespace Expr

/-- One expression ends before another by their spans. -/
def EndsBefore (d e : Expr α) : Prop := d.span.EndsBefore e.span

/-- What stands in a part of an expression ends before it. -/
theorem Nested.endsBefore {e c d : Expr α} (h : e.Nested) (child : c ∈ e.children)
    (deep : d ∈ c.subexpressions) : d.EndsBefore e := by
  have stands : d ∈ e.subexpressions := mem_subexpressions.2 (.inr ⟨c, child, deep⟩)
  obtain ⟨from_le, le⟩ := (h.nest.under (under_iff.2 stands)).2
  have ne := h.ne_of_part child deep
  unfold EndsBefore Span.EndsBefore
  by_contra late
  apply ne
  cases same : d.span
  cases same' : e.span
  simp only [same, same'] at from_le le late
  congr 1 <;> omega

variable {es : List (Expr α)} {lo hi : Nat}

/-- Expressions that lie in order are listed as they end if each of them is. -/
theorem endsBefore_flatMap (inside : Arranged lo (es.map Expr.span) hi) (nested : ∀ e ∈ es, e.Nested)
    (each : ∀ e ∈ es, e.subexpressions.Pairwise EndsBefore) :
    (es.flatMap subexpressions).Pairwise EndsBefore := by
  rw [List.pairwise_flatMap]
  constructor
  · exact each
  · have order := List.pairwise_map.1 inside.pairwise
    apply order.imp_of_mem
    intro d e first second le a inD b inE
    have ends := ((nested d first).nest.under (under_iff.2 inD)).2
    obtain ⟨nestB, starts⟩ := (nested e second).nest.under (under_iff.2 inE)
    have wide := nestB.wide
    unfold EndsBefore Span.EndsBefore
    simp only [Span.Contains] at ends starts
    omega

theorem Nested.pairwise {e : Expr α} (h : e.Nested) : e.subexpressions.Pairwise EndsBefore := by
  induction e using induction_children with
  | node e ih =>
      have own := h
      obtain ⟨-, inside, -, inner⟩ := h
      have parts := endsBefore_flatMap inside inner fun c child => ih c child (inner c child)
      have behind : ∀ d ∈ e.children.flatMap subexpressions, ∀ b ∈ [e], d.EndsBefore b := by
        intro d member b last
        obtain rfl := List.mem_singleton.1 last
        obtain ⟨c, child, deep⟩ := List.mem_flatMap.1 member
        exact own.endsBefore child deep
      rw [subexpressions_eq, List.pairwise_append]
      exact ⟨parts, List.pairwise_singleton _ _, behind⟩

end Expr

namespace Source

variable {source : Source} {u : SourceUnit Unit}

/-- The roots of a file that has been read, with all their tokens. -/
theorem roots_of_parse (read : source.parse.unit = .ok u) :
    ∃ ts, (Token.scan source).lexemes = lexemes 0 ts ∧
      Laid Expr.Located 0 (u.contracts.flatMap Contract.roots) ts := by
  obtain ⟨ts, found, holds⟩ := Token.scan_holds source
  have laid := source.laid_of_parse read found holds
  exact ⟨ts, found, laid.flatMap fun _ _ _ placed => placed.roots⟩

theorem nested_roots_of_parse (read : source.parse.unit = .ok u) :
    ∀ r ∈ u.contracts.flatMap Contract.roots, r.Nested := by
  obtain ⟨ts, -, roots⟩ := roots_of_parse read
  exact roots.forall fun _ _ _ located => located.nested

theorem nested_of_parse (read : source.parse.unit = .ok u) : ∀ e ∈ u.expressions, e.Nested := by
  intro e member
  rw [u.expressions_eq] at member
  obtain ⟨r, root, deep⟩ := List.mem_flatMap.1 member
  exact (nested_roots_of_parse read r root).mem deep

/-- The expressions of a file that has been read are listed as they end. -/
theorem endsBefore_of_parse (read : source.parse.unit = .ok u) :
    u.expressions.Pairwise Expr.EndsBefore := by
  obtain ⟨ts, -, roots⟩ := roots_of_parse read
  have nested := nested_roots_of_parse read
  rw [u.expressions_eq]
  exact Expr.endsBefore_flatMap (roots.arranged Expr.Located.places) nested fun e member =>
    (nested e member).pairwise

/-- Of the expressions of a file that has been read, those that end before one of them are listed
before it, and those before which it ends behind it. -/
theorem sides_of_parse (read : source.parse.unit = .ok u) {before behind : List (Expr Unit)}
    {e : Expr Unit} (split : u.expressions = before ++ e :: behind) {d : Expr Unit}
    (member : d ∈ u.expressions) :
    (d.EndsBefore e → d ∈ before) ∧ (e.EndsBefore d → d ∈ behind) := by
  have order := endsBefore_of_parse read
  rw [split, List.pairwise_append, List.pairwise_cons] at order
  obtain ⟨-, ⟨later, -⟩, across⟩ := order
  have earlier : ∀ b ∈ before, b.EndsBefore e := fun b inside => across b inside e List.mem_cons_self
  rw [split] at member
  rcases List.mem_append.1 member with first | rest
  · exact ⟨fun _ => first, fun ends => absurd ends (earlier d first).asymm⟩
  rcases List.mem_cons.1 rest with rfl | last
  · exact ⟨fun ends => absurd ends ends.asymm, fun ends => absurd ends ends.asymm⟩
  · exact ⟨fun ends => absurd ends (later d last).asymm, fun _ => last⟩

/-- The expressions of a file that has been read are those among its nodes, which are listed
once each, parts first. Their spans differ and are sorted as they end, and every expression
stands behind all that is in it and before all that follows it in the source. -/
theorem visits_of_parse (read : source.parse.unit = .ok u) :
    u.expressions = u.postOrder.filterMap Construct.expr? ∧
      (∀ x, x ∈ u.postOrder ↔ u.Has x) ∧
      (∀ e, e ∈ u.expressions ↔ u.Has (.expr e)) ∧
      (u.expressions.map Expr.span).Nodup ∧
      (u.expressions.map Expr.span).Pairwise Span.EndsBefore ∧
      ∀ before e behind, u.expressions = before ++ e :: behind →
        (∀ d, (Construct.expr e).Has (.expr d) → d ≠ e → d ∈ before) ∧
        ∀ d, u.Has (.expr d) → e.span.stop ≤ d.span.start → d ∈ behind := by
  have order := endsBefore_of_parse read
  have mem : ∀ e, e ∈ u.expressions ↔ u.Has (.expr e) := fun e => u.mem_expressions_iff
  have sorted : (u.expressions.map Expr.span).Pairwise Span.EndsBefore := List.pairwise_map.2 order
  refine ⟨u.filterMap_postOrder.symm, fun x => SourceUnit.mem_postOrder, mem, ?_, sorted, ?_⟩
  · refine sorted.imp fun {a b} ends same => ?_
    rw [same] at ends
    exact ends.asymm ends
  · intro before e behind split
    have here : e ∈ u.expressions := by simp [split]
    constructor
    · intro d stands other
      have deep : d ∈ e.subexpressions := stands.expressions d d.self_mem_subexpressions
      obtain ⟨c, child, inside⟩ := (Expr.mem_subexpressions.1 deep).resolve_left other
      obtain ⟨n, node, above⟩ := (mem e).1 here
      have member : d ∈ u.expressions := (mem d).2 ⟨n, node, above.trans stands⟩
      exact (sides_of_parse read split member).1 ((nested_of_parse read e here).endsBefore child inside)
    · intro d stands le
      have member := (mem d).2 stands
      have wide := (nested_of_parse read d member).nest.wide
      exact (sides_of_parse read split member).2 (.inl (by omega))

/-- A file with expressions in all places, one of them in a loop that tests it behind its body. -/
def loopsSource : Source :=
  ("contract B is A(1) \x7b uint a = 2; function f() m(3) \x7b do a = a - 4; while (a > 5); " ++
   "for (a = 6; a < 7; a++) g(a); \x7d modifier m(uint b) \x7b h(b); _; \x7d \x7d").toList

theorem visits_of_parse_loops : ∃ u, loopsSource.parse.unit = .ok u ∧ u.expressions.length = 26 ∧
    u.expressions = u.postOrder.filterMap Construct.expr? ∧
    (u.expressions.map Expr.span).Pairwise Span.EndsBefore := by
  have found : loopsSource.parse.unit.toOption.any (fun u => u.expressions.length == 26) = true := by
    decide +kernel
  obtain ⟨u, read, many⟩ := exists_of_any found
  obtain ⟨nodes, -, -, -, order, -⟩ := visits_of_parse read
  exact ⟨u, read, by simpa using many, nodes, order⟩

end Source

/-- The expressions of a function are among those of the file, in the same order. -/
theorem SourceUnit.function_expressions_sublist {u : SourceUnit α} {f : FunctionDef α}
    (member : f ∈ u.functions) : f.expressions.Sublist u.expressions := by
  obtain ⟨c, inU, inC⟩ := List.mem_flatMap.1 member
  obtain ⟨m, inMembers, own⟩ := List.mem_filterMap.1 inC
  have same : m.expressions = f.expressions := by
    cases m with
    | function g =>
        obtain rfl : g = f := by simpa using own
        rfl
    | _ => simp at own
  have inContract : m.expressions.Sublist (c.members.flatMap Member.expressions) :=
    List.sublist_flatten_of_mem (List.mem_map_of_mem inMembers)
  have inUnit : c.expressions.Sublist u.expressions :=
    List.sublist_flatten_of_mem (List.mem_map_of_mem inU)
  rw [← same]
  exact (inContract.trans (List.sublist_append_right _ _)).trans inUnit

end SafeSubset
