import SafeSubset.Proofs.Checked.Copies

/-! The texts that are written out for an expression. Once it has been visited, the text is
what is taken up for it from what is pending, and it is what stands for it in the rewritten
file, as often as it does. It means the tree that the rewriting is about. -/
namespace SafeSubset.Checked

open Edits (Around)
open Emission (textAll standingAll)

variable {source : Source} {u : SourceUnit Ty} {c : Contract Ty} {cs : List (Contract Ty)}
  {d e : Expr Ty} {es : List (Expr Ty)} {lo hi o : Nat}

/-- What is pending when the contracts `earlier` of a file have been rewritten, and the
expressions `visited` of the next one have been visited. -/
def pendingAt (source : Source) (earlier : List (Contract Ty)) (visited : List (Expr Ty)) : Edits :=
  let before := earlier.foldl (rewriteContract source) ⟨.empty, ⟨[], false, false⟩⟩
  (visited.foldl (visit source) ⟨before.pending, 0⟩).pending

/-- The edits in an expression are pending, behind all that is pending besides. -/
def Settled (source : Source) (pending : Edits) (e : Expr Ty) : Prop :=
  ∃ pre, pending.entries = pre ++ patches source e ∧ Arranged 0 (pre.map Prod.fst) e.span.start

section Visits

/-- Whatever is pending before `o`, an expression is settled as soon as it has been visited
among `es`. -/
def Settles (source : Source) (o : Nat) (es : List (Expr Ty)) : Prop :=
  ∀ (p : Progress), Arranged 0 (p.pending.entries.map Prod.fst) o →
    ∀ passed e, passed ++ [e] <+: es → Settled source ((passed ++ [e]).foldl (visit source) p).pending e

theorem settles_all (parts : Arranged o (es.map Expr.span) hi) (nested : ∀ e ∈ es, e.Nested)
    (each : ∀ e ∈ es, Settles source e.span.start e.subexpressions) :
    Settles source o (es.flatMap Expr.subexpressions) := by
  intro p before passed e here
  induction es generalizing o p passed with
  | nil => simp at here
  | cons d es ih =>
      obtain ⟨-⟩ | ⟨from_le, -, -, rest⟩ := parts
      have own := nested d List.mem_cons_self
      have start := before.right from_le
      have inside := each d List.mem_cons_self p start passed e
      rw [List.flatMap_cons] at here
      rcases List.prefix_or_prefix_of_prefix here (List.prefix_append _ _) with within | ⟨more, same⟩
      · exact inside within
      · rcases List.eq_nil_or_concat more with rfl | ⟨more, last, rfl⟩
        · exact inside (by simp [← same])
        · -- The expression stands behind all of `d`.
          rw [List.concat_eq_append, ← List.append_assoc] at same
          obtain ⟨rfl, alone⟩ := List.append_inj' same rfl
          cases alone
          rw [List.append_assoc, List.foldl_append]
          rw [List.append_assoc, List.prefix_append_right_inj] at here
          apply ih rest (fun a ha => nested a (List.mem_cons_of_mem d ha))
            (fun a ha => each a (List.mem_cons_of_mem d ha)) _ _ _ here
          rw [adds_expression own p start, List.map_append]
          exact start.append (arranged_patches source own)

theorem settles_expression (nested : d.Nested) : Settles source d.span.start d.subexpressions := by
  induction nested with
  | @node d wide parts proper inner ih =>
      intro p before passed e here
      have whole : (d.subexpressions.foldl (visit source) p).pending.entries =
          p.pending.entries ++ patches source d := adds_expression (.node wide parts proper inner) p before
      rw [Expr.subexpressions_eq] at here whole
      rcases List.prefix_concat_iff.1 here with same | within
      · rw [← same] at whole
        obtain ⟨-, alone⟩ := List.append_inj' same rfl
        cases alone
        exact ⟨_, whole, before⟩
      · exact settles_all parts inner ih p before passed e within

theorem settles_contract (ordered : Ordered c) : Settles source c.span.start c.expressions := by
  rw [Contract.expressions_eq]
  exact settles_all (arranged_roots ordered) ordered.nested fun root top =>
    settles_expression (ordered.nested root top)

theorem settled_contracts (parts : Arranged lo (cs.map Contract.span) hi) (ordered : ∀ c ∈ cs, Ordered c)
    {p : FileProgress} (before : Arranged 0 (p.pending.entries.map Prod.fst) lo)
    {earlier : List (Contract Ty)} {passed : List (Expr Ty)} (inside : earlier ++ [c] <+: cs)
    (here : passed ++ [e] <+: c.expressions) :
    Settled source ((passed ++ [e]).foldl (visit source)
      ⟨(earlier.foldl (rewriteContract source) p).pending, 0⟩).pending e := by
  induction cs generalizing lo p earlier with
  | nil => simp at inside
  | cons d cs ih =>
      obtain ⟨-⟩ | ⟨from_le, -, -, rest⟩ := parts
      have own := ordered d List.mem_cons_self
      have start := before.right from_le
      cases earlier with
      | nil =>
          obtain ⟨rfl, -⟩ := List.cons_prefix_cons.1 inside
          exact settles_contract own ⟨p.pending, 0⟩ start passed e here
      | cons d' earlier =>
          obtain ⟨rfl, later⟩ := List.cons_prefix_cons.1 inside
          exact ih rest (fun a ha => ordered a (List.mem_cons_of_mem d' ha))
            (arranged_rewriteContract own source start) later

end Visits

/-- What is taken up for a settled expression is its text. -/
theorem consume_settled {pending : Edits} (nested : e.Nested) (settled : Settled source pending e) :
    (pending.consume source e.span).1 = outText source e := by
  obtain ⟨pre, entries, before⟩ := settled
  have around : Around e.span pending pre (patches source e) [] :=
    ⟨by simp [entries], ⟨0, before⟩, arranged_patches source nested, _, .nil (Nat.le_refl _)⟩
  exact (consume_operand nested around).2.1

/-- The texts that are written out for an expression of an accepted file mean the tree that
it becomes, if every compound assignment of the file assigns to a place: those that stand for
it in the marked pieces of the rewritten text, of which there is one at least, and in a
contract whose operations are replaced the one that is taken up as soon as the expression has
been visited. -/
theorem means_emitted (accepted : source.front = .ok u) (places : ∀ d ∈ u.expressions, d.AssignsPlace)
    (inside : c ∈ u.contracts) (member : e ∈ c.expressions) :
    textAll (fileEmissions source u) = (harden source u).text ∧
    standingAll e.span (fileEmissions source u) ≠ [] ∧
    (∀ text ∈ standingAll e.span (fileEmissions source u), Means text (producedTree u c e)) ∧
    (rewrites u c = true → ∀ earlier passed,
      earlier ++ [c] <+: u.contracts → passed ++ [e] <+: c.expressions →
        Means ((pendingAt source earlier (passed ++ [e])).consume source e.span).1 (producedTree u c e)) := by
  have means := means_produced accepted places inside member
  have standing := standingAll_fileEmissions accepted inside member
  refine ⟨text_fileEmissions accepted, ?_, fun text stands => ?_, fun on earlier passed front here => ?_⟩
  · simp [standing]
  · rw [standing] at stands
    rw [List.eq_of_mem_replicate stands]
    exact means
  · obtain ⟨parts, ordered⟩ := ordered_contracts accepted
    obtain ⟨_, _, _, located, -⟩ := Source.front_stands accepted inside e member
    have settled : Settled source (pendingAt source earlier (passed ++ [e])) e :=
      settled_contracts parts ordered (.nil (Nat.le_refl _)) front here
    have same : producedText source u c e = outText source e := by rw [producedText, if_pos on]
    rw [consume_settled located.nested settled, ← same]
    exact means

/-- A file in which an element is assigned a difference, with a sum in it. -/
def elementSource : Source :=
  "contract C \x7b uint[] b; function f(uint a) public \x7b b[a] -= -a + 2; \x7d \x7d".toList

theorem means_emitted_element : ∃ u, elementSource.front = .ok u ∧
    (∀ d ∈ u.expressions, d.AssignsPlace) ∧
    textAll (fileEmissions elementSource u) = (harden elementSource u).text ∧
    ∃ c ∈ u.contracts, rewrites u c = true ∧ ∃ e ∈ c.expressions, Fires e ∧
      "b[a] = b[a].sub((-a).add(2))".toList ∈ standingAll e.span (fileEmissions elementSource u) ∧
      Means "b[a] = b[a].sub((-a).add(2))".toList (producedTree u c e) ∧
      ∃ earlier passed, earlier ++ [c] <+: u.contracts ∧ passed ++ [e] <+: c.expressions ∧
        Means ((pendingAt elementSource earlier (passed ++ [e])).consume elementSource e.span).1
          (producedTree u c e) := by
  have accepted : elementSource.front.toOption.any (fun u =>
      decide (∀ d ∈ u.expressions, d.AssignsPlace) &&
        u.contracts.any fun c => rewrites u c && c.expressions.any fun e => decide (Fires e) &&
          (standingAll e.span (fileEmissions elementSource u)).contains
            "b[a] = b[a].sub((-a).add(2))".toList) = true := by
    decide +kernel
  obtain ⟨u, found, holds⟩ := exists_of_any accepted
  simp only [Bool.and_eq_true, decide_eq_true_eq, List.any_eq_true, List.contains_iff_mem] at holds
  obtain ⟨places, c, inside, on, e, member, fires, stands⟩ := holds
  obtain ⟨text, -, means, taken⟩ := means_emitted found places inside member
  obtain ⟨earlier, later, contracts⟩ := List.append_of_mem inside
  obtain ⟨passed, left, expressions⟩ := List.append_of_mem member
  have front : earlier ++ [c] <+: u.contracts := ⟨later, by simp [contracts]⟩
  have here : passed ++ [e] <+: c.expressions := ⟨left, by simp [expressions]⟩
  exact ⟨u, found, places, text, c, inside, on, e, member, fires, stands, means _ stands,
    earlier, passed, front, here, taken on earlier passed front here⟩

end SafeSubset.Checked
