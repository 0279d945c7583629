import SafeSubset.Proofs.Grammar.Framed
import SafeSubset.Proofs.Grammar.Standing
import SafeSubset.Proofs.Source.Nest

/-! The spans of a file's tree. Each runs from the first token of its node to the last,
parts lie in order in what they are parts of, no two spans cross, and those of two
expressions differ. -/
namespace SafeSubset

open Token (Spaced Holds lexemes width extent)
open Grammar.Phrase (Takes)

variable {source : Source} {o : Nat} {ts : List Spaced} {α : Type}

section Layout

variable {ε δ : Type} {W : Nat → ε → List Spaced → Prop} {V : Nat → δ → List Spaced → Prop}
  {es : List ε}

/-- What stands in each of some parts stands among all their tokens. -/
theorem Laid.flatMap {f : ε → List δ} (step : ∀ o e us, W o e us → Laid V o (f e) us)
    (laid : Laid W o es ts) : Laid V o (es.flatMap f) ts := by
  obtain ⟨gs, parts, weave, rfl⟩ := laid
  induction weave with
  | last => exact .nil _ _
  | @part o g us vs e gs parts written rest ih =>
      have front := (Laid.nil o g).append (step _ e us written)
      rw [Nat.add_assoc, ← Token.width_append] at ih
      exact front.append ih

end Layout

namespace Construct

variable {x y : Construct}

theorem Occupies.nest (h : x.Occupies source o ts) : Nest parts Construct.span x := by
  refine h.induction (P := fun _ x _ => Nest parts Construct.span x) ?_
  intro o x ts some same takes laid
  have places : ∀ o (y : Construct) us, y.Occupies source o us ∧ Nest parts Construct.span y →
      us ≠ [] ∧ y.span = extent o us := fun o y us part => part.1.span
  have inside := laid.arranged places
  refine .node ?_ ?_ (laid.forall fun _ _ _ part => part.2)
  · rw [same]
    exact Token.extent_lt o some
  · rw [same]
    exact inside

theorem Occupies.places (o : Nat) (x : Construct) (us : List Spaced) (h : x.Occupies source o us) :
    us ≠ [] ∧ x.span = extent o us :=
  h.span

/-- Whatever stands in a node has its tokens among those of the node. -/
theorem Occupies.has (h : x.Occupies source o ts) (stands : x.Has y) :
    ∃ before us behind, ts = before ++ us ++ behind ∧ y.Occupies source (o + width before) us := by
  induction stands with
  | refl => exact ⟨[], ts, [], by simp, by simpa using h⟩
  | tail _ part ih =>
      obtain ⟨before, us, behind, rfl, occupies⟩ := ih
      obtain ⟨before', vs, behind', rfl, occupies'⟩ := occupies.laid.mem part
      exact ⟨before ++ before', vs, behind' ++ behind, by simp, by simpa [Nat.add_assoc] using occupies'⟩

/-- A node that stands where its span says. -/
structure InPlace (source : Source) (x : Construct) : Prop where
  /-- The span runs from the first to the last of the tokens that the node is read off. -/
  tokens : ∃ o ts, Takes source o x ts ∧ lexemes o ts <:+: (Token.scan source).lexemes ∧
    (lexemes o ts).head?.map (·.span.start) = some x.span.start ∧
    (lexemes o ts).getLast?.map (·.span.stop) = some x.span.stop
  wide : x.span.start < x.span.stop
  characters : ∃ before inside behind, source = before ++ (inside ++ behind) ∧
    Source.byteLength before = x.span.start ∧ Source.byteLength (before ++ inside) = x.span.stop
  contains : ∀ y ∈ x.parts, x.span.Contains y.span
  order : (x.parts.map Construct.span).Pairwise fun a b => a.stop ≤ b.start

theorem Occupies.inPlace {before behind us : List Spaced} (found : (Token.scan source).lexemes = lexemes 0 ts)
    (holds : Holds source 0 ts) (among : ts = before ++ us ++ behind)
    (h : x.Occupies source (width before) us) : x.InPlace source := by
  obtain ⟨some, place⟩ := h.span
  obtain ⟨wide, inside, -⟩ := h.nest
  subst among
  refine ⟨⟨width before, us, h.takes, ?_, ?_, ?_⟩, wide, ?_, ?_, inside.pairwise⟩
  · rw [found, Token.lexemes_append, Token.lexemes_append]
    exact ⟨_, _, by rw [Nat.zero_add]⟩
  · rw [place]
    cases us with
    | nil => contradiction
    | cons t us => rfl
  · rw [place, Token.getLast_lexemes _ some]
    rfl
  · obtain ⟨front, after, same, zero⟩ := holds.left.right
    have text := Token.gapText_core some
    refine ⟨front ++ (us.head?.map Spaced.gapText).getD [], Token.core us, after, ?_, ?_, ?_⟩
    · rw [same, text]
      simp
    · rw [place]
      simp [extent, zero]
    · have whole : Source.byteLength (Token.textOf us) = width us := rfl
      rw [List.append_assoc, ← text, Source.byteLength_append, zero, whole, place]
      simp [extent]
  · intro y member
    obtain ⟨from_le, -, -, le⟩ := inside.bounds (List.mem_map_of_mem member)
    exact ⟨from_le, le⟩

end Construct

section Expressions

theorem Expr.Located.places (o : Nat) (e : Expr α) (us : List Spaced) (h : e.Located o us) :
    us ≠ [] ∧ e.span = extent o us :=
  h.span

/-- The spans of expressions form trees. -/
theorem Expr.Nested.nest {e : Expr α} (h : e.Nested) : Nest children Expr.span e := by
  induction e using induction_children with
  | node e ih =>
      obtain ⟨wide, inside, -, inner⟩ := h
      exact .node wide inside fun c child => ih c child (inner c child)

theorem Expr.under_iff {e d : Expr α} : Under children e d ↔ d ∈ e.subexpressions := by
  constructor
  · intro stands
    induction stands with
    | refl => exact e.self_mem_subexpressions
    | tail _ part ih =>
        refine mem_subexpressions_trans ?_ ih
        exact mem_subexpressions.2 (.inr ⟨_, part, self_mem_subexpressions _⟩)
  · intro member
    induction e using induction_children with
    | node e ih =>
        rcases mem_subexpressions.1 member with rfl | ⟨c, child, inside⟩
        · exact .refl
        · exact .head child (ih c child inside)

theorem Expr.Nested.mem {e d : Expr α} (h : e.Nested) (member : d ∈ e.subexpressions) : d.Nested := by
  induction e using induction_children with
  | node e ih =>
      rcases mem_subexpressions.1 member with rfl | ⟨c, child, deep⟩
      · exact h
      · obtain ⟨-, -, -, inner⟩ := h
        exact ih c child (inner c child) deep

/-- Spans that contain one another are one. -/
theorem Span.Contains.antisymm {a b : Span} (first : a.Contains b) (second : b.Contains a) : a = b := by
  obtain ⟨from_le, le⟩ := first
  obtain ⟨from_le', le'⟩ := second
  cases a
  cases b
  simp only at from_le le from_le' le'
  congr <;> omega

/-- What stands in a part of an expression has another span. -/
theorem Expr.Nested.ne_of_part {e c d : Expr α} (h : e.Nested) (child : c ∈ e.children)
    (deep : d ∈ c.subexpressions) : d.span ≠ e.span := by
  obtain ⟨-, inside, proper, inner⟩ := h
  obtain ⟨from_le, -, -, le⟩ := inside.bounds (List.mem_map_of_mem child)
  have lies := ((inner c child).nest.under (under_iff.2 deep)).2
  intro same
  rw [same] at lies
  exact proper c child (lies.antisymm ⟨from_le, le⟩)

variable {es : List (Expr α)} {lo hi : Nat}

/-- The spans of all expressions in some that lie in order differ. -/
theorem nodup_spans_flatMap (inside : Arranged lo (es.map Expr.span) hi) (nested : ∀ e ∈ es, e.Nested)
    (one : ∀ e ∈ es, (e.subexpressions.map Expr.span).Nodup) :
    ((es.flatMap Expr.subexpressions).map Expr.span).Nodup := by
  induction es generalizing lo with
  | nil => exact .nil
  | cons e es ih =>
      obtain ⟨-⟩ | ⟨-, -, -, rest⟩ := inside
      rw [List.flatMap_cons, List.map_append, List.nodup_append]
      refine ⟨one e List.mem_cons_self, ?_, ?_⟩
      · exact ih rest (fun d member => nested d (List.mem_cons_of_mem e member))
          fun d member => one d (List.mem_cons_of_mem e member)
      · intro s first t second same
        obtain ⟨a, inA, rfl⟩ := List.mem_map.1 first
        obtain ⟨b, inB, rfl⟩ := List.mem_map.1 second
        obtain ⟨d, member, inD⟩ := List.mem_flatMap.1 inB
        obtain ⟨nestA, -, le⟩ := (nested e List.mem_cons_self).nest.under (Expr.under_iff.2 inA)
        obtain ⟨-, from_le, -⟩ :=
          (nested d (List.mem_cons_of_mem e member)).nest.under (Expr.under_iff.2 inD)
        have behind := (rest.bounds (List.mem_map_of_mem member)).1
        have wide := nestA.wide
        rw [same] at le wide
        omega

theorem Expr.Nested.nodup {e : Expr α} (h : e.Nested) : (e.subexpressions.map Expr.span).Nodup := by
  induction e using induction_children with
  | node e ih =>
      have own := h
      obtain ⟨-, inside, proper, inner⟩ := h
      rw [subexpressions_eq, List.map_append, List.nodup_append]
      refine ⟨nodup_spans_flatMap inside inner fun c child => ih c child (inner c child), by simp, ?_⟩
      intro s first t second same
      obtain ⟨d, member, rfl⟩ := List.mem_map.1 first
      obtain rfl : t = e.span := by simpa using second
      obtain ⟨c, child, deep⟩ := List.mem_flatMap.1 member
      exact own.ne_of_part child deep same

end Expressions

section Files

theorem SourceUnit.expressions_eq (u : SourceUnit α) :
    u.expressions = (u.contracts.flatMap Contract.roots).flatMap Expr.subexpressions := by
  have own : (Contract.expressions : Contract α → _) =
      fun c => c.roots.flatMap Expr.subexpressions := funext Contract.expressions_eq
  rw [expressions, own, List.flatMap_assoc]

/-- The expressions among the nodes of a file are those of the file. -/
theorem SourceUnit.mem_expressions_of_has {u : SourceUnit Unit} {e : Expr Unit}
    (h : u.Has (.expr e)) : e ∈ u.expressions := by
  obtain ⟨n, member, stands⟩ := h
  have here := stands.expressions e e.self_mem_subexpressions
  cases n with
  | pragma s | inclusion s => cases here
  | contract c => exact List.mem_flatMap.2 ⟨c, List.mem_filterMap.2 ⟨_, member, rfl⟩, here⟩

section Trees

variable {u : SourceUnit Unit}

/-- Each node of a file stands where its span says. -/
theorem inPlace_of_laid (found : (Token.scan source).lexemes = lexemes 0 ts) (holds : Holds source 0 ts)
    (laid : Laid (Construct.Occupies source) 0 (u.nodes.map .node) ts) :
    ∀ x, u.Has x → x.InPlace source := by
  rintro x ⟨n, member, stands⟩
  obtain ⟨before, us, behind, rfl, occupies⟩ := laid.mem (List.mem_map_of_mem member)
  obtain ⟨before', vs, behind', rfl, occupies'⟩ := occupies.has stands
  rw [Nat.zero_add, ← Token.width_append] at occupies'
  have among : before ++ (before' ++ vs ++ behind') ++ behind =
      (before ++ before') ++ vs ++ (behind' ++ behind) := by simp
  exact occupies'.inPlace found holds among

theorem nodes_within (read : source.parse.unit = .ok u) (holds : Holds source 0 ts)
    (laid : Laid (Construct.Occupies source) 0 (u.nodes.map .node) ts) :
    ∀ n ∈ u.nodes, u.span.Contains n.span := by
  intro n member
  have inside := laid.arranged Construct.Occupies.places
  obtain ⟨-, -, -, le⟩ := inside.bounds (List.mem_map_of_mem (List.mem_map_of_mem member))
  obtain ⟨ns, rfl, -⟩ := source.split_of_parse read
  obtain ⟨before, after, same, zero⟩ := holds
  have whole : Source.byteLength source = width ts + Source.byteLength after := by
    rw [same]
    simp [zero, width]
  refine ⟨Nat.zero_le _, ?_⟩
  show n.span.stop ≤ Source.byteLength source
  have le : n.span.stop ≤ 0 + width ts := le
  omega

theorem no_overlap (laid : Laid (Construct.Occupies source) 0 (u.nodes.map .node) ts) {x y : Construct}
    (first : u.Has x) (second : u.Has y) : ¬ x.span.PartiallyOverlaps y.span := by
  have inside := laid.arranged Construct.Occupies.places
  have nests : ∀ x ∈ u.nodes.map .node, Nest Construct.parts Construct.span x :=
    laid.forall fun _ _ _ occupies => occupies.nest
  obtain ⟨n, top, first⟩ := first
  obtain ⟨k, top', second⟩ := second
  have top := List.mem_map_of_mem (f := Construct.node) top
  have top' := List.mem_map_of_mem (f := Construct.node) top'
  have nestX := ((nests _ top).under first).1
  have nestY := ((nests _ top').under second).1
  rintro ⟨lt, lt', outside, outside'⟩
  rcases Nest.forest inside nests (fun x member => (nests x member).relate) top first top' second with
    below | below | apart
  · exact outside (nestX.under below).2
  · exact outside' (nestY.under below).2
  · simp only [Span.Apart] at apart
    omega

/-- An expression's span lies strictly in another's where it stands in the other. -/
theorem contains_iff {roots : List (Expr α)} {lo hi : Nat}
    (inside : Arranged lo (roots.map Expr.span) hi) (nested : ∀ e ∈ roots, e.Nested) {d e : Expr α}
    (first : d ∈ roots.flatMap Expr.subexpressions) (second : e ∈ roots.flatMap Expr.subexpressions) :
    d.span.Contains e.span ∧ d.span ≠ e.span ↔ e ∈ d.subexpressions ∧ e ≠ d := by
  obtain ⟨r, top, first⟩ := List.mem_flatMap.1 first
  obtain ⟨r', top', second⟩ := List.mem_flatMap.1 second
  have nestedD := (nested r top).mem first
  have nestedE := (nested r' top').mem second
  constructor
  · rintro ⟨contains, ne⟩
    refine ⟨?_, fun same => ne (same ▸ rfl)⟩
    have nests : ∀ e ∈ roots, Nest Expr.children Expr.span e := fun e member => (nested e member).nest
    rcases Nest.forest inside nests (fun e member => (nests e member).relate) top
      (Expr.under_iff.2 first) top' (Expr.under_iff.2 second) with below | above | apart
    · exact Expr.under_iff.1 below
    · -- Each of the two spans would contain the other.
      exact absurd (contains.antisymm (nestedE.nest.under above).2) ne
    · have wide := nestedE.wide
      simp only [Span.Apart, Span.Contains] at apart contains
      omega
  · rintro ⟨member, ne⟩
    refine ⟨(nestedD.nest.under (Expr.under_iff.2 member)).2, ?_⟩
    rcases Expr.mem_subexpressions.1 member with rfl | ⟨c, child, deep⟩
    · exact absurd rfl ne
    · exact (nestedD.ne_of_part child deep).symm

end Trees

/-- The spans of the tree of a file that has been read. Each node stands where its span
says, with its parts in order inside it; so do the nodes of the file. No two spans
overlap without one containing the other. No two expressions have one span, and the
span of an expression lies strictly in another's if and only if the expression stands
in the other. -/
theorem spans_of_parse {u : SourceUnit Unit} (read : source.parse.unit = .ok u) :
    (∀ x, u.Has x → x.InPlace source) ∧
      (u.nodes.map Node.span).Pairwise (fun a b => a.stop ≤ b.start) ∧
      (∀ n ∈ u.nodes, u.span.Contains n.span) ∧
      (∀ x y, u.Has x → u.Has y → ¬ x.span.PartiallyOverlaps y.span) ∧
      (∀ e, u.Has (.expr e) → e ∈ u.expressions) ∧ (u.expressions.map Expr.span).Nodup ∧
      ∀ d ∈ u.expressions, ∀ e ∈ u.expressions,
        d.span.Contains e.span ∧ d.span ≠ e.span ↔ e ∈ d.subexpressions ∧ e ≠ d := by
  obtain ⟨ts, found, holds⟩ := Token.scan_holds source
  have laid := source.occupies_of_parse read found holds
  have order := (laid.arranged Construct.Occupies.places).pairwise
  rw [List.map_map] at order
  have roots : Laid Expr.Located 0 (u.contracts.flatMap Contract.roots) ts :=
    (source.laid_of_parse read found holds).flatMap fun _ _ _ placed => placed.roots
  have inside := roots.arranged Expr.Located.places
  have nested : ∀ e ∈ u.contracts.flatMap Contract.roots, e.Nested :=
    roots.forall fun _ _ _ located => located.nested
  refine ⟨inPlace_of_laid found holds laid, order, nodes_within read holds laid,
    fun x y => no_overlap laid, fun e => u.mem_expressions_of_has, ?_, ?_⟩
  · rw [u.expressions_eq]
    exact nodup_spans_flatMap inside nested fun e member => (nested e member).nodup
  · intro d first e second
    rw [u.expressions_eq] at first second
    exact contains_iff inside nested first second

/-- A file in which a sum is returned. -/
def returnSource : Source :=
  "contract C \x7b function f(uint a) public returns (uint) \x7b return a + 1; \x7d \x7d".toList

theorem spans_of_parse_return : ∃ u, returnSource.parse.unit = .ok u ∧ u.expressions.length = 3 ∧
    (u.expressions.map Expr.span).Nodup ∧ ∀ x, u.Has x → x.InPlace returnSource := by
  have found : returnSource.parse.unit.toOption.any (fun u => u.expressions.length == 3) = true := by
    decide +kernel
  obtain ⟨u, read, three⟩ := exists_of_any found
  obtain ⟨places, -, -, -, -, spans, -⟩ := spans_of_parse read
  exact ⟨u, read, by simpa using three, spans, places⟩

end Files
end SafeSubset
