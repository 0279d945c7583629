import SafeSubset.Proofs.Checked.Emitted
import SafeSubset.Proofs.Checked.Reread
import SafeSubset.Proofs.Grammar.Spans
import Mathlib.Algebra.Group.Nat.Defs

/-! How often an expression is written out. Each is once, and twice as often for every
compound assignment around it that becomes the assignment of a call, if it stands in what
is assigned to: that is written out before the equals sign and as the receiver. -/
namespace SafeSubset

/-- Whether evaluating the expression itself changes something. -/
def Expr.HasEffect {α : Type} : Expr α → Bool
  | .call .. | .assign .. => true
  | .unary _ op _ _ => op = .increment || op = .decrement || op = .delete
  | _ => false

namespace Checked

open Emission (textAll standing standingAll filled)

variable {source : Source} {on : Bool} {s : Span} {c : Contract Ty} {d e l r : Expr Ty}

/-- Whether what stands for the expression at a span is written out twice for a node: a
compound assignment that becomes the assignment of a call, with the span in what it assigns
to. -/
def doubles (on : Bool) (s : Span) (a : Expr Ty) : Bool :=
  match a with
  | .assign _ _ l _ => decide (Exchanged on a) && l.subexpressions.any fun d => d.span = s
  | _ => false

/-- The texts for a span in what is written out for an expression. -/
def writtenFor (source : Source) (on : Bool) (s : Span) (e : Expr Ty) : List Source :=
  standing s (.expression e.span (emissions source on e))

/-- What is the same for all but one item of a list, where items have no part in common. -/
theorem flatMap_only {α β γ : Type} {xs : List α} {f : α → List β} {g : α → List γ} {x : α} {y : β}
    (nodup : (xs.flatMap f).Nodup) (member : x ∈ xs) (inside : y ∈ f x)
    (none : ∀ z ∈ xs, y ∉ f z → g z = []) : xs.flatMap g = g x := by
  obtain ⟨as, bs, rfl⟩ := List.append_of_mem member
  simp only [List.flatMap_append, List.flatMap_cons, List.nodup_append] at nodup ⊢
  obtain ⟨-, ⟨-, -, behind⟩, before⟩ := nodup
  have front : as.flatMap g = [] := List.flatMap_eq_nil_iff.2 fun z here => by
    refine none z (List.mem_append_left _ here) fun also => ?_
    exact before y (List.mem_flatMap.2 ⟨z, here, also⟩) y (List.mem_append_left _ inside) rfl
  have rest : bs.flatMap g = [] := List.flatMap_eq_nil_iff.2 fun z here => by
    refine none z (List.mem_append_right _ (List.mem_cons_of_mem x here)) fun also => ?_
    exact behind y inside y (List.mem_flatMap.2 ⟨z, here, also⟩) rfl
  rw [front, rest, List.nil_append, List.append_nil]

/-- What is written out for a node: what is for its parts, and for what a replaced compound
assignment assigns to once more. -/
theorem standingAll_emissions (source : Source) (on : Bool) (s : Span) (e : Expr Ty) :
    doubles on s e = false ∧
        standingAll s (emissions source on e) = e.children.flatMap (writtenFor source on s) ∨
      ∃ i op l r, e = .assign i op l r ∧ Exchanged on e ∧
        standingAll s (emissions source on e) =
          writtenFor source on s l ++ (writtenFor source on s l ++ writtenFor source on s r) := by
  by_cases exchanged : Exchanged on e
  · cases e with
    | assign i o l r =>
        refine .inr ⟨i, o, l, r, rfl, exchanged, ?_⟩
        simp [emissions, exchanged, callEmissions, standingAll, standing, writtenFor]
    | binary i o l r =>
        refine .inl ⟨rfl, ?_⟩
        have receiver : standingAll s (receiverEmissions l (.expression l.span (emissions source on l))) =
            writtenFor source on s l := by
          unfold receiverEmissions
          split
          · simp [standingAll, standing, writtenFor]
          · split <;> simp [standingAll, standing, writtenFor]
        simp [emissions, exchanged, callEmissions, receiver, Expr.children, standingAll, writtenFor, standing]
    | _ => cases exchanged.2
  · refine .inl ⟨?_, ?_⟩
    · cases e <;> simp [doubles, exchanged]
    · rw [emissions_of_not exchanged, Emission.standingAll_filled]
      simp only [placedEmission, standingAll, List.flatMap_map, List.append_nil]
      rfl

theorem standingAll_eq_nil (none : ∀ p ∈ e.children, writtenFor source on s p = []) :
    standingAll s (emissions source on e) = [] := by
  rcases standingAll_emissions source on s e with ⟨-, same⟩ | ⟨i, op, l, r, rfl, -, same⟩
  · rw [same]
    exact List.flatMap_eq_nil_iff.2 none
  · rw [same, none l (by simp [Expr.children]), none r (by simp [Expr.children])]
    rfl

/-- An expression is written out for no other spans than those in it. -/
theorem writtenFor_eq_nil (outside : s ∉ e.subexpressions.map Expr.span) : writtenFor source on s e = [] := by
  induction e using Expr.induction_children with
  | node e ih =>
      have other : e.span ≠ s := by
        rintro rfl
        exact outside (List.mem_map_of_mem e.self_mem_subexpressions)
      have parts : ∀ c ∈ e.children, writtenFor source on s c = [] := fun c child => ih c child fun inside => by
        obtain ⟨d, deep, same⟩ := List.mem_map.1 inside
        exact outside (List.mem_map.2 ⟨d, Expr.mem_subexpressions.2 (.inr ⟨c, child, deep⟩), same⟩)
      rw [writtenFor, standing, if_neg other, List.nil_append, standingAll_eq_nil parts]

theorem not_doubles (outside : s ∉ e.subexpressions.map Expr.span) :
    e.subexpressions.filter (doubles on s) = [] := by
  refine List.filter_eq_nil_iff.2 fun a deep here => ?_
  cases a with
  | assign i op l r =>
      simp only [doubles, Bool.and_eq_true, List.any_eq_true, decide_eq_true_eq] at here
      obtain ⟨-, d, inside, same⟩ := here
      have part : d ∈ (Expr.assign i op l r).subexpressions :=
        Expr.mem_subexpressions.2 (.inr ⟨l, by simp [Expr.children], inside⟩)
      exact outside (List.mem_map.2 ⟨d, Expr.mem_subexpressions_trans part deep, same⟩)
  | _ => cases here

/-- What there is of some expressions for only those with a span in them. -/
theorem spans_only {γ : Type} {g : Expr Ty → List γ} {es : List (Expr Ty)} {p : Expr Ty}
    (nodup : ((es.flatMap Expr.subexpressions).map Expr.span).Nodup) (part : p ∈ es)
    (deep : d ∈ p.subexpressions)
    (none : ∀ z ∈ es, d.span ∉ z.subexpressions.map Expr.span → g z = []) : es.flatMap g = g p := by
  rw [List.map_flatMap] at nodup
  exact flatMap_only nodup part (List.mem_map_of_mem deep) none

theorem nodup_children (nested : e.Nested) :
    ((e.children.flatMap Expr.subexpressions).map Expr.span).Nodup := by
  have nodup := nested.nodup
  rw [Expr.subexpressions_eq, List.map_append] at nodup
  exact (List.nodup_append.1 nodup).1

/-- Of some expressions only that with a span in it has something that doubles the span. -/
theorem countP_flatMap_only {es : List (Expr Ty)} {p : Expr Ty}
    (nodup : ((es.flatMap Expr.subexpressions).map Expr.span).Nodup) (part : p ∈ es)
    (deep : d ∈ p.subexpressions) :
    (es.flatMap Expr.subexpressions).countP (doubles on d.span) =
      p.subexpressions.countP (doubles on d.span) := by
  have only : es.flatMap (fun z => z.subexpressions.filter (doubles on d.span)) =
      p.subexpressions.filter (doubles on d.span) :=
    spans_only nodup part deep fun z _ outside => not_doubles outside
  rw [List.countP_eq_length_filter, List.filter_flatMap, only, ← List.countP_eq_length_filter]

/-- What doubles a span in one part of an expression does so in the expression, and of
the others at most the expression itself does. -/
theorem countP_doubles {p : Expr Ty} (nested : e.Nested) (part : p ∈ e.children)
    (deep : d ∈ p.subexpressions) :
    e.subexpressions.countP (doubles on d.span) =
      p.subexpressions.countP (doubles on d.span) + if doubles on d.span e then 1 else 0 := by
  rw [Expr.subexpressions_eq, List.countP_append, countP_flatMap_only (nodup_children nested) part deep]
  simp [List.countP_cons]

/-- What is assigned to and what is assigned have no span in common. -/
theorem disjoint_of_assign {i : Info Ty} {op : AssignOp} (nested : (Expr.assign i op l r).Nested) :
    List.Disjoint (l.subexpressions.map Expr.span) (r.subexpressions.map Expr.span) := by
  have parts := nodup_children nested
  simp only [Expr.children, List.flatMap_cons, List.flatMap_nil, List.append_nil, List.map_append] at parts
  exact fun s first second => (List.nodup_append.1 parts).2.2 s first s second rfl

/-- Nothing around an expression in it is the expression. -/
theorem own_outside {p : Expr Ty} (nested : e.Nested) (part : p ∈ e.children) :
    e.span ∉ p.subexpressions.map Expr.span := by
  intro inside
  obtain ⟨d, deep, same⟩ := List.mem_map.1 inside
  exact nested.ne_of_part part deep same

/-- An expression is written out for itself once. -/
theorem writtenFor_self (nested : e.Nested) :
    writtenFor source on e.span e = [textAll (emissions source on e)] ∧
      e.subexpressions.countP (doubles on e.span) = 0 := by
  have outside := fun p part => own_outside nested (p := p) part
  constructor
  · rw [writtenFor, standing, if_pos rfl, standingAll_eq_nil fun p part => writtenFor_eq_nil (outside p part)]
    rfl
  · have own : doubles on e.span e = false := by
      cases e with
      | assign i op l r =>
          have left := outside l (by simp [Expr.children])
          simp only [doubles, Bool.and_eq_false_iff, List.any_eq_false, decide_eq_true_eq]
          exact .inr fun x inside same => left (List.mem_map.2 ⟨x, inside, same⟩)
      | _ => rfl
    rw [Expr.subexpressions_eq, List.countP_append, List.countP_eq_length_filter, List.filter_flatMap,
      List.flatMap_eq_nil_iff.2 fun p part => not_doubles (outside p part)]
    simp [own]

/-- What is in a part of an expression is written out for the expression as often as for
the part, or twice as often. -/
theorem writtenFor_part {p : Expr Ty} (nested : e.Nested) (part : p ∈ e.children)
    (deep : d ∈ p.subexpressions) :
    writtenFor source on d.span e =
      if doubles on d.span e then writtenFor source on d.span p ++ writtenFor source on d.span p
      else writtenFor source on d.span p := by
  have other : e.span ≠ d.span := (nested.ne_of_part part deep).symm
  rw [writtenFor, standing, if_neg other, List.nil_append]
  rcases standingAll_emissions source on d.span e with ⟨none, same⟩ | ⟨i, op, l, r, rfl, fires, same⟩
  · rw [same, spans_only (nodup_children nested) part deep fun z _ outside => writtenFor_eq_nil outside, none]
    rfl
  · have apart := disjoint_of_assign nested
    have spans := List.mem_map_of_mem (f := Expr.span) deep
    rw [same]
    obtain rfl | rfl : p = l ∨ p = r := by simpa [Expr.children] using part
    · have twice : doubles on d.span (.assign i op p r) = true := by
        simp only [doubles, Bool.and_eq_true, List.any_eq_true, decide_eq_true_eq]
        exact ⟨fires, d, deep, rfl⟩
      rw [writtenFor_eq_nil (e := r) (apart spans), List.append_nil, if_pos twice]
    · have outside : d.span ∉ l.subexpressions.map Expr.span := fun here => apart here spans
      have once : doubles on d.span (.assign i op l p) = false := by
        simp only [doubles, Bool.and_eq_false_iff, List.any_eq_false, decide_eq_true_eq]
        exact .inr fun x here same => outside (List.mem_map.2 ⟨x, here, same⟩)
      rw [writtenFor_eq_nil outside, once]
      rfl

/-- An expression in another is written out for it once, and doubled by every node of the
other that doubles its span. -/
theorem writtenFor_eq (nested : e.Nested) (deep : d ∈ e.subexpressions) :
    writtenFor source on d.span e =
      List.replicate (2 ^ e.subexpressions.countP (doubles on d.span)) (textAll (emissions source on d)) := by
  induction e using Expr.induction_children with
  | node e ih =>
      rcases Expr.mem_subexpressions.1 deep with rfl | ⟨p, part, inside⟩
      · obtain ⟨own, none⟩ := writtenFor_self nested
        rw [own, none]
        rfl
      · obtain ⟨-, -, -, inner⟩ := id nested
        rw [writtenFor_part nested part inside, countP_doubles nested part inside,
          ih p part (inner p part) inside]
        cases doubles on d.span e with
        | false => rfl
        | true =>
            rw [if_pos rfl, if_pos rfl, List.replicate_append_replicate, pow_succ, Nat.mul_two]

section Files

/-- What is put in stands for no expression. -/
theorem standing_contractEmissions (free first : Bool) (c : Contract Ty) :
    (contractEmissions source free first c).flatMap (fun i => standingAll s i.2) =
      c.roots.flatMap (writtenFor source (free && !decide (Attaches c)) s) := by
  have place : ∀ (es : List (Expr Ty)) on, (es.map (placedEmission source on)).flatMap
      (fun i => standingAll s i.2) = es.flatMap (writtenFor source on s) := by
    intro es on
    simp only [placedEmission, standingAll, List.flatMap_map, List.append_nil]
    rfl
  rw [contractEmissions, Contract.roots, List.flatMap_append, List.flatMap_append, List.flatMap_append,
    List.flatMap_append, place, place]
  cases free && changes c <;> cases first <;> simp [standingAll, standing]

theorem standing_contractsEmissions (free first : Bool) (cs : List (Contract Ty)) :
    (contractsEmissions source free first cs).flatMap (fun i => standingAll s i.2) =
      cs.flatMap fun c => c.roots.flatMap (writtenFor source (free && !decide (Attaches c)) s) := by
  induction cs generalizing first with
  | nil => rfl
  | cons c cs ih => rw [contractsEmissions, List.flatMap_append, standing_contractEmissions, ih, List.flatMap_cons]

theorem standing_fileEmissions (u : SourceUnit Ty) :
    standingAll s (fileEmissions source u) =
      u.contracts.flatMap fun c => c.roots.flatMap (writtenFor source (rewrites u c) s) := by
  rw [fileEmissions, Emission.standingAll_filled, standing_contractsEmissions]
  rfl

variable {u : SourceUnit Ty}

/-- The spans of the expressions of an accepted file differ. -/
theorem nodup_spans (accepted : source.front = .ok u) :
    ((u.contracts.flatMap fun c => c.roots.flatMap Expr.subexpressions).map Expr.span).Nodup := by
  obtain ⟨ts, -, -, -, laid⟩ := Source.front_placed accepted
  have roots : Laid Expr.Located 0 (u.contracts.flatMap Contract.roots) ts :=
    laid.flatMap fun _ _ _ placed => placed.roots
  have nested : ∀ e ∈ u.contracts.flatMap Contract.roots, e.Nested :=
    roots.forall fun _ _ _ located => located.nested
  have nodup := nodup_spans_flatMap (roots.arranged Expr.Located.places) nested
    fun e member => (nested e member).nodup
  rwa [List.flatMap_assoc] at nodup

/-- The text that stands for an expression of an accepted file is what becomes of its own. -/
theorem text_emissions (accepted : source.front = .ok u) (inside : c ∈ u.contracts)
    (member : e ∈ c.expressions) :
    textAll (emissions source (rewrites u c) e) = producedText source u c e := by
  obtain ⟨o, ts, x, located, holds, -⟩ := Source.front_stands accepted inside e member
  have bounded := bounded_of_located located holds
  have same := (fills_emissions (rewrites u c) located.nested bounded).substituted
  rw [← same, producedText, outText, editsOf]
  split
  · rfl
  · rfl

/-- What stands for an expression of an accepted file in what is written out for the file. -/
theorem standingAll_fileEmissions (accepted : source.front = .ok u) (inside : c ∈ u.contracts)
    (member : e ∈ c.expressions) :
    standingAll e.span (fileEmissions source u) =
      List.replicate (2 ^ c.expressions.countP (doubles (rewrites u c) e.span)) (producedText source u c e) := by
  have nodup := nodup_spans accepted
  rw [← text_emissions accepted inside member]
  obtain ⟨-, ordered⟩ := ordered_contracts accepted
  rw [Contract.expressions_eq] at member ⊢
  obtain ⟨root, top, deep⟩ := List.mem_flatMap.1 member
  have own : ((c.roots.flatMap Expr.subexpressions).map Expr.span).Nodup := by
    refine nodup.sublist (List.Sublist.map _ ?_)
    exact List.sublist_flatten_of_mem (List.mem_map_of_mem inside)
  rw [List.map_flatMap] at nodup
  rw [standing_fileEmissions, flatMap_only nodup inside (List.mem_map_of_mem member),
    spans_only own top deep fun z _ outside => writtenFor_eq_nil outside,
    writtenFor_eq ((ordered c inside).nested root top) deep, countP_flatMap_only own top deep]
  intro z _ outside
  refine List.flatMap_eq_nil_iff.2 fun other here => writtenFor_eq_nil fun also => outside ?_
  obtain ⟨d, deep, same⟩ := List.mem_map.1 also
  exact List.mem_map.2 ⟨d, List.mem_flatMap.2 ⟨other, here, deep⟩, same⟩

/-- How often an expression of an accepted file is written out, and as what. The marked
pieces give the rewritten text; in them what becomes of the expression stands for it once,
and twice as often for each replaced compound assignment with the expression in what
it assigns to. -/
theorem standing_expressions (accepted : source.front = .ok u) :
    textAll (fileEmissions source u) = (harden source u).text ∧
      ∀ c ∈ u.contracts, ∀ e ∈ c.expressions,
        standingAll e.span (fileEmissions source u) =
          List.replicate (2 ^ c.expressions.countP (doubles (rewrites u c) e.span)) (producedText source u c e) :=
  ⟨text_fileEmissions accepted, fun _ inside _ member => standingAll_fileEmissions accepted inside member⟩

/-- A file in which what a call gives says which element is added to. -/
def elementOfCallSource : Source :=
  ("contract C \x7b uint n; uint[] a; function g() returns (uint) \x7b return n++; \x7d " ++
   "function f() \x7b a[g()] += 1; \x7d \x7d").toList

theorem standing_expressions_twice : ∃ u, elementOfCallSource.front = .ok u ∧
    ∃ c ∈ u.contracts, ∃ e ∈ c.expressions, e.HasEffect = true ∧
      standingAll e.span (fileEmissions elementOfCallSource u) =
        [producedText elementOfCallSource u c e, producedText elementOfCallSource u c e] := by
  have accepted : elementOfCallSource.front.toOption.any (fun u =>
      u.contracts.any fun c => c.expressions.any fun e =>
        e.HasEffect && c.expressions.countP (doubles (rewrites u c) e.span) == 1) = true := by
    decide +kernel
  obtain ⟨u, found, holds⟩ := exists_of_any accepted
  simp only [List.any_eq_true, Bool.and_eq_true, beq_iff_eq] at holds
  obtain ⟨c, inside, e, member, effect, once⟩ := holds
  refine ⟨u, found, c, inside, e, member, effect, ?_⟩
  rw [(standing_expressions found).2 c inside e member, once]
  rfl

/-- The call is written out twice. -/
theorem standing_expressions_call : ∃ u, elementOfCallSource.front = .ok u ∧
    textAll (fileEmissions elementOfCallSource u) = (harden elementOfCallSource u).text ∧
    ∃ c ∈ u.contracts, ∃ e ∈ c.expressions, e.HasEffect = true ∧
      (standingAll e.span (fileEmissions elementOfCallSource u)).length ≠ 1 := by
  have accepted : elementOfCallSource.front.toOption.any (fun u =>
      u.contracts.any fun c => c.expressions.any fun e =>
        e.HasEffect && (standingAll e.span (fileEmissions elementOfCallSource u)).length != 1) = true := by
    decide +kernel
  obtain ⟨u, found, holds⟩ := exists_of_any accepted
  simp only [List.any_eq_true, Bool.and_eq_true, bne_iff_ne] at holds
  obtain ⟨c, inside, e, member, effect, other⟩ := holds
  exact ⟨u, found, text_fileEmissions found, c, inside, e, member, effect, other⟩

end Files
end Checked
end SafeSubset
