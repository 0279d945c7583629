import SafeSubset.Proofs.Checked.Reference
import SafeSubset.Proofs.Grammar.Nested

/-! What is pending while the expressions of a file are visited. A visit adds
the outermost checked operations of an expression, with the texts that they
have by recursion, behind all that was pending before. -/
namespace SafeSubset.Checked

open Edits (Around)

variable {source : Source} {lo hi o : Nat} {es : List (Expr Ty)} {e : Expr Ty}

section Spans

theorem arranged_patches (source : Source) (nested : e.Nested) :
    Arranged e.span.start ((patches source e).map Prod.fst) e.span.stop := by
  induction nested with
  | @node e wide parts proper inner ih =>
      cases fires : operation? e with
      | some o =>
          rw [patches_of_some fires]
          exact .single (Nat.le_refl _) wide (Nat.le_refl _)
      | none =>
          rw [patches_of_none fires, List.map_flatMap]
          exact parts.flatMap ih

theorem arranged_flatMap (source : Source) (parts : Arranged lo (es.map Expr.span) hi)
    (nested : ∀ e ∈ es, e.Nested) :
    Arranged lo ((es.flatMap (patches source)).map Prod.fst) hi := by
  rw [List.map_flatMap]
  exact parts.flatMap fun e member => arranged_patches source (nested e member)

/-- No part of a node is replaced in the node's place. -/
theorem patches_ne (nested : e.Nested) (plain : operation? e = none) :
    ∀ p ∈ patches source e, p.1 ≠ e.span := by
  obtain ⟨wide, parts, proper, inner⟩ := nested
  intro p member same
  rw [patches_of_none plain] at member
  obtain ⟨c, child, member⟩ := List.mem_flatMap.1 member
  obtain ⟨le, -, -, stop⟩ := (arranged_patches source (inner c child)).bounds (List.mem_map_of_mem member)
  obtain ⟨le', -, -, stop'⟩ := parts.bounds (List.mem_map_of_mem child)
  rw [same] at le stop
  refine proper c child ?_
  rw [show c.span = ⟨c.span.start, c.span.stop⟩ from rfl,
    show e.span = ⟨e.span.start, e.span.stop⟩ from rfl, Span.mk.injEq]
  omega

/-- What is replaced is wide. -/
theorem wide_patches (nested : e.Nested) : ∀ p ∈ patches source e, p.1.start < p.1.stop := by
  induction nested with
  | @node e wide parts proper inner ih =>
      intro p member
      cases fires : operation? e with
      | some o =>
          rw [patches_of_some fires, List.mem_singleton] at member
          rw [member]
          exact wide
      | none =>
          rw [patches_of_none fires] at member
          obtain ⟨c, child, member⟩ := List.mem_flatMap.1 member
          exact ih c child p member

end Spans

/-- Taking up an operand: its text is the one by recursion, and what is pending
besides remains. -/
theorem consume_operand {pending : Edits} {pre post : List Edit} (nested : e.Nested)
    (around : Around e.span pending pre (patches source e) post) :
    pending.contains e.span = (operation? e).isSome ∧
      (pending.consume source e.span).1 = outText source e ∧
      (pending.consume source e.span).2.entries = pre ++ post := by
  cases fires : operation? e with
  | some o =>
      rw [patches_of_some fires] at around
      exact around.consume_edit
  | none => exact around.consume_source nested.wide (patches_ne nested fires)

theorem operations_visits (source : Source) (es : List (Expr Ty)) (p : Progress) :
    (es.foldl (visit source) p).operations =
      p.operations + es.countP fun e => (operation? e).isSome := by
  induction es generalizing p with
  | nil => rfl
  | cons e es ih =>
      rw [List.foldl_cons, ih, List.countP_cons]
      cases fires : operation? e with
      | none => simp [visit, fires]
      | some o =>
          simp [visit, fires]
          omega

/-- Visiting `es` adds `added` to what is pending before `o`. -/
def Adds (source : Source) (o : Nat) (es : List (Expr Ty)) (added : List Edit) : Prop :=
  ∀ (p : Progress), Arranged 0 (p.pending.entries.map Prod.fst) o →
    (es.foldl (visit source) p).pending.entries = p.pending.entries ++ added

theorem adds_all (parts : Arranged o (es.map Expr.span) hi) (nested : ∀ e ∈ es, e.Nested)
    (each : ∀ e ∈ es, Adds source e.span.start e.subexpressions (patches source e)) :
    Adds source o (es.flatMap Expr.subexpressions) (es.flatMap (patches source)) := by
  intro p before
  induction es generalizing o p with
  | nil => simp
  | cons e es ih =>
      obtain ⟨-⟩ | ⟨from_le, -, -, rest⟩ := parts
      have first := each e List.mem_cons_self p (before.right from_le)
      have inner := arranged_patches source (nested e List.mem_cons_self)
      rw [List.flatMap_cons, List.foldl_append]
      rw [ih rest (fun d hd => nested d (List.mem_cons_of_mem _ hd))
        (fun d hd => each d (List.mem_cons_of_mem _ hd))]
      · rw [first]
        simp
      · rw [first, List.map_append]
        exact (before.right from_le).append inner

/-- Taking up both operands leaves what was pending before them. -/
theorem consume_operands {l r : Expr Ty} {pending : Edits} {pre : List Edit} (left : l.Nested)
    (right : r.Nested) (apart : l.span.stop ≤ r.span.start)
    (before : Arranged 0 (pre.map Prod.fst) l.span.start)
    (entries : pending.entries = pre ++ (patches source l ++ patches source r)) :
    pending.contains l.span = (operation? l).isSome ∧
      (pending.consume source l.span).1 = outText source l ∧
      ((pending.consume source l.span).2.consume source r.span).1 = outText source r ∧
      ((pending.consume source l.span).2.consume source r.span).2.entries = pre := by
  have inside := arranged_patches source left
  have behind := arranged_patches source right
  have first : Around l.span pending pre (patches source l) (patches source r) :=
    ⟨by simp [entries], ⟨0, before⟩, inside, _, behind.left apart⟩
  obtain ⟨isCall, text, remaining⟩ := consume_operand left first
  have wide := left.wide
  have second : Around r.span (pending.consume source l.span).2 pre (patches source r) [] :=
    ⟨by simp [remaining], ⟨0, before.right (by omega)⟩, behind, _, .nil (Nat.le_refl _)⟩
  obtain ⟨-, text', remaining'⟩ := consume_operand right second
  exact ⟨isCall, text, text', by simpa using remaining'⟩

/-- A visit of a checked operation whose operands have been visited puts its text
in the place of theirs. -/
theorem visit_fires {o : Operation} (fires : operation? e = some o) (nested : e.Nested)
    {p : Progress} {pre : List Edit} (before : Arranged 0 (pre.map Prod.fst) e.span.start)
    (entries : p.pending.entries = pre ++ e.children.flatMap (patches source)) :
    (visit source p e).pending.entries = pre ++ patches source e := by
  obtain ⟨wide, parts, -, inner⟩ := nested
  have last : ∀ {pending : Edits} {text : Source}, pending.entries = pre →
      (pending.insert e.span text).entries = pre ++ [(e.span, text)] := by
    intro pending text same
    rw [Edits.insert_last, same]
    intro d member
    exact (before.bounds (List.mem_map_of_mem (same ▸ member))).2.1
  rw [patches_of_some fires]
  cases e with
  | binary i op l r =>
      obtain ⟨from_le, apart⟩ := Arranged.pair parts
      obtain ⟨isCall, left, right, remaining⟩ := consume_operands (inner l (by simp [Expr.children]))
        (inner r (by simp [Expr.children])) apart (before.right from_le)
        (by simpa [Expr.children] using entries)
      rw [outText_binary fires, ← isCall, ← left, ← right]
      simp only [visit, fires]
      exact last remaining
  | assign i op l r =>
      obtain ⟨from_le, apart⟩ := Arranged.pair parts
      obtain ⟨-, left, right, remaining⟩ := consume_operands (inner l (by simp [Expr.children]))
        (inner r (by simp [Expr.children])) apart (before.right from_le)
        (by simpa [Expr.children] using entries)
      rw [outText_assign fires, ← left, ← right]
      simp only [visit, fires]
      exact last remaining
  | _ => contradiction

/-- Visiting an expression and everything in it. -/
theorem adds_expression (nested : e.Nested) :
    Adds source e.span.start e.subexpressions (patches source e) := by
  induction nested with
  | @node e wide parts proper inner ih =>
      intro p before
      have children := adds_all parts inner ih p before
      rw [Expr.subexpressions_eq, List.foldl_append, List.foldl_cons, List.foldl_nil]
      cases fires : operation? e with
      | none =>
          simp only [visit, fires]
          rw [patches_of_none fires]
          exact children
      | some o => exact visit_fires fires (.node wide parts proper inner) before children

end SafeSubset.Checked
