import SafeSubset.Proofs.Checked.Pending
import SafeSubset.Proofs.Grammar.File

/-! The text of a rewritten file is the one by recursion on its syntax. -/
namespace SafeSubset.Checked

open Edits (Around substituted)
open Token (Spaced width extent)

variable {source : Source} {c : Contract Ty} {cs : List (Contract Ty)} {lo hi o : Nat}

/-- How a contract and the expressions in it lie. -/
structure Ordered (c : Contract Ty) : Prop where
  bases : Arranged c.span.start ((c.bases.flatMap Base.roots).map Expr.span) c.entry
  members : Arranged c.entry ((c.members.flatMap Member.roots).map Expr.span) c.span.stop
  entry : c.span.start < c.entry ∧ c.entry < c.span.stop
  nested : ∀ e ∈ c.roots, e.Nested

theorem ordered_of_placed {ts : List Spaced} (h : c.Placed o ts) : Ordered c := by
  obtain ⟨-, span, us, vs, rfl, ⟨init, a, ends, -⟩, bases, members, before, behind, entry⟩ := h
  have some : us ≠ [] := by simp [ends]
  have spans := fun o (e : Expr Ty) us (h : e.Located o us) => h.span
  have start : c.span.start = (extent o us).start := by rw [span, Token.extent_append o some]
  have stop : c.span.stop = o + width us + width vs := by
    rw [span, Token.extent_stop, Token.width_append, Nat.add_assoc]
  have wide := Token.extent_lt o some
  have ends := Token.extent_stop o us
  refine ⟨?_, ?_, ⟨by omega, behind⟩, ?_⟩
  · rw [start]
    exact (bases.arranged spans).right before
  · rw [stop]
    rcases entry with ⟨none, -⟩ | same
    · rw [none]
      exact .nil (by omega)
    · rw [same]
      exact members.arranged spans
  · intro e member
    rcases List.mem_append.1 member with member | member
    · exact bases.forall (fun _ _ _ located => located.nested) e member
    · exact members.forall (fun _ _ _ located => located.nested) e member

theorem patches_eq_nil {e : Expr Ty} (plain : ∀ d ∈ e.subexpressions, operation? d = none) :
    patches source e = [] := by
  induction e using Expr.induction_children with
  | node e ih =>
      rw [patches_of_none (plain e e.self_mem_subexpressions), List.flatMap_eq_nil_iff]
      intro c child
      exact ih c child fun d inside => plain d (Expr.mem_subexpressions.2 (.inr ⟨c, child, inside⟩))

section Contracts

variable (ordered : Ordered c)

include ordered

theorem arranged_bases (source : Source) : Arranged c.span.start
    (((c.bases.flatMap Base.roots).flatMap (patches source)).map Prod.fst) c.entry :=
  arranged_flatMap source ordered.bases fun e member =>
    ordered.nested e (List.mem_append.2 (.inl member))

theorem arranged_members (source : Source) : Arranged c.entry
    (((c.members.flatMap Member.roots).flatMap (patches source)).map Prod.fst) c.span.stop :=
  arranged_flatMap source ordered.members fun e member =>
    ordered.nested e (List.mem_append.2 (.inr member))

/-- What is replaced in a contract lies in it. -/
theorem arranged_contractPatches (first : Bool) :
    Arranged c.span.start ((contractPatches source first c).map Prod.fst) c.span.stop := by
  obtain ⟨after, before⟩ := ordered.entry
  have directive : Arranged c.entry
      (.point c.entry :: ((c.members.flatMap Member.roots).flatMap (patches source)).map Prod.fst)
      c.span.stop :=
    .cons (Nat.le_refl _) before (Nat.le_refl _) (arranged_members ordered source)
  have inside := (arranged_bases ordered source).append directive
  cases first with
  | false => simpa [contractPatches] using inside
  | true =>
      have library : Arranged c.span.start (.point c.span.start :: _) c.span.stop :=
        .cons (Nat.le_refl _) (by simp only [Span.point]; omega) (Nat.le_refl _) inside
      simpa [contractPatches] using library

theorem arranged_roots : Arranged c.span.start (c.roots.map Expr.span) c.span.stop := by
  rw [Contract.roots, List.map_append]
  exact ordered.bases.append ordered.members

omit ordered in
theorem wide_flatMap {es : List (Expr Ty)} (nested : ∀ e ∈ es, e.Nested) :
    ∀ p ∈ es.flatMap (patches source), p.1.start < p.1.stop := by
  intro p member
  obtain ⟨e, inside, member⟩ := List.mem_flatMap.1 member
  exact wide_patches (nested e inside) p member

theorem visits_contract (source : Source) {p : Progress}
    (before : Arranged 0 (p.pending.entries.map Prod.fst) c.span.start) :
    (c.expressions.foldl (visit source) p).pending.entries =
      p.pending.entries ++ c.roots.flatMap (patches source) := by
  rw [Contract.expressions_eq]
  exact adds_all (arranged_roots ordered) ordered.nested
    (fun e member => adds_expression (ordered.nested e member)) p before

/-- The directive goes between what is pending for the bases and for the members. -/
theorem insert_directive {pending : Edits} {pre : List Edit}
    (before : ∀ e ∈ pre, e.1.start < c.entry)
    (entries : pending.entries = pre ++ c.roots.flatMap (patches source)) :
    (pending.insertAt (directivePlace c) directiveSource).entries =
      pre ++ contractPatches source false c := by
  have same : pending.entries =
      (pre ++ (c.bases.flatMap Base.roots).flatMap (patches source)) ++
        (c.members.flatMap Member.roots).flatMap (patches source) := by
    simp [entries, Contract.roots]
  rw [directivePlace_eq, Edits.insertAt_between directiveSource same ?_ ?_]
  · simp [contractPatches]
  · intro e member
    rcases List.mem_append.1 member with member | member
    · exact before e member
    · exact ((arranged_bases ordered source).bounds (List.mem_map_of_mem member)).2.1
  · intro e member
    have nested : ∀ e ∈ c.members.flatMap Member.roots, e.Nested := fun e inside =>
      ordered.nested e (List.mem_append.2 (.inr inside))
    exact ⟨((arranged_members ordered source).bounds (List.mem_map_of_mem member)).1,
      wide_flatMap nested e member⟩

/-- The library goes before all that is pending for the contract. -/
theorem insert_library {pending : Edits} {pre : List Edit}
    (before : ∀ e ∈ pre, e.1.start < c.span.start)
    (entries : pending.entries = pre ++ c.roots.flatMap (patches source)) :
    (pending.insertAt c.span.start librarySource).entries =
      (pre ++ [(.point c.span.start, librarySource)]) ++ c.roots.flatMap (patches source) := by
  rw [Edits.insertAt_between librarySource entries before ?_]
  · simp
  · intro e member
    have inside := arranged_flatMap source (arranged_roots ordered) ordered.nested
    exact ⟨(inside.bounds (List.mem_map_of_mem member)).1, wide_flatMap ordered.nested e member⟩

theorem insert_both {pending : Edits} {pre : List Edit} (first : Bool)
    (before : Arranged 0 (pre.map Prod.fst) c.span.start)
    (entries : pending.entries = pre ++ c.roots.flatMap (patches source)) :
    (((if first then pending.insertAt c.span.start librarySource else pending).insertAt
      (directivePlace c) directiveSource).entries) = pre ++ contractPatches source first c := by
  have starts : ∀ e ∈ pre, e.1.start < c.span.start := fun e member =>
    (before.bounds (List.mem_map_of_mem member)).2.1
  have after := ordered.entry.1
  cases first with
  | false => exact insert_directive ordered (fun e h => Nat.lt_trans (starts e h) after) entries
  | true =>
      simp only [if_true]
      rw [insert_directive ordered ?_ (insert_library ordered starts entries)]
      · simp [contractPatches]
      · intro e member
        rcases List.mem_append.1 member with member | member
        · exact Nat.lt_trans (starts e member) after
        · obtain rfl := List.mem_singleton.1 member
          exact after

/-- Rewriting a contract adds what is replaced in it. -/
theorem rewriteContract_adds (source : Source) {p : FileProgress}
    (before : Arranged 0 (p.pending.entries.map Prod.fst) c.span.start) :
    (rewriteContract source p c).pending.entries = p.pending.entries ++
        (if changes c then contractPatches source (!p.report.libraryInjected) c else []) ∧
      (rewriteContract source p c).report.libraryInjected =
        (p.report.libraryInjected || changes c) := by
  have visited := visits_contract ordered source (p := ⟨p.pending, 0⟩) before
  have count := operations_visits source c.expressions ⟨p.pending, 0⟩
  unfold rewriteContract
  cases attaches : attachesLibrary c with
  | true => simp [changes_eq, attaches]
  | false =>
      simp only [Bool.false_eq_true, if_false]
      generalize c.expressions.foldl (visit source) ⟨p.pending, 0⟩ = done at visited count ⊢
      have changed : changes c = true ↔ done.operations ≠ 0 := by
        rw [count]
        simp [changes_eq, attaches, List.countP_eq_zero, Option.isSome_iff_ne_none]
      by_cases none : done.operations = 0
      · have same : changes c = false := by
          rw [← Bool.not_eq_true, changed]
          exact not_not_intro none
        have empty : c.roots.flatMap (patches source) = [] := by
          refine List.flatMap_eq_nil_iff.2 fun e root => patches_eq_nil fun d inside => ?_
          have member : d ∈ c.expressions := by
            rw [Contract.expressions_eq]
            exact List.mem_flatMap.2 ⟨e, root, inside⟩
          simp [changes_eq, attaches] at same
          exact same d member
        rw [if_pos none]
        simp [same, visited, empty]
      · have placed := insert_both ordered (!p.report.libraryInjected) before visited
        rw [if_neg none]
        simp only [changed.2 none, Bool.or_true, and_true, if_true]
        rw [← placed]
        cases p.report.libraryInjected <;> rfl

/-- What is pending stays in a row when a contract is rewritten. -/
theorem arranged_rewriteContract (source : Source) {p : FileProgress}
    (before : Arranged 0 (p.pending.entries.map Prod.fst) c.span.start) :
    Arranged 0 ((rewriteContract source p c).pending.entries.map Prod.fst) c.span.stop := by
  obtain ⟨entries, -⟩ := rewriteContract_adds ordered source before
  have forward := Nat.le_of_lt (Nat.lt_trans ordered.entry.1 ordered.entry.2)
  rw [entries, List.map_append]
  split
  · exact before.append (arranged_contractPatches ordered _)
  · simpa using before.right forward

end Contracts

theorem arranged_filePatches (parts : Arranged lo (cs.map Contract.span) hi)
    (ordered : ∀ c ∈ cs, Ordered c) (first : Bool) :
    Arranged lo ((filePatches source first cs).map Prod.fst) hi := by
  induction cs generalizing lo first with
  | nil =>
      cases parts
      exact .nil ‹_›
  | cons c cs ih =>
      obtain ⟨-⟩ | ⟨from_le, -, forward, rest⟩ := parts
      have others := fun first => ih rest (fun d hd => ordered d (List.mem_cons_of_mem _ hd)) first
      rw [filePatches_cons]
      split
      · rw [List.map_append]
        exact ((arranged_contractPatches (ordered c List.mem_cons_self) first).left from_le).append
          (others false)
      · exact (others first).left (by omega)

/-- Rewriting contracts one after the other. -/
theorem rewriteContracts_adds (source : Source) (parts : Arranged lo (cs.map Contract.span) hi)
    (ordered : ∀ c ∈ cs, Ordered c) {p : FileProgress}
    (before : Arranged 0 (p.pending.entries.map Prod.fst) lo) :
    (cs.foldl (rewriteContract source) p).pending.entries =
      p.pending.entries ++ filePatches source (!p.report.libraryInjected) cs := by
  induction cs generalizing lo p with
  | nil => simp [filePatches]
  | cons c cs ih =>
      obtain ⟨-⟩ | ⟨from_le, -, -, rest⟩ := parts
      have own := ordered c List.mem_cons_self
      have here := before.right from_le
      obtain ⟨entries, injected⟩ := rewriteContract_adds own source here
      have after := arranged_rewriteContract own source here
      rw [List.foldl_cons, ih rest (fun d hd => ordered d (List.mem_cons_of_mem _ hd)) after, entries,
        injected]
      rw [filePatches_cons]
      cases changes c <;> simp

/-- The contracts of an accepted file and the expressions in them lie in order. -/
theorem ordered_contracts {u : SourceUnit Ty} (accepted : source.front = .ok u) :
    Arranged 0 (u.contracts.map Contract.span) (Source.byteLength source) ∧
      ∀ c ∈ u.contracts, Ordered c := by
  obtain ⟨ts, -, -, holds, laid⟩ := Source.front_placed accepted
  have spans := fun o (c : Contract Ty) us (h : c.Placed o us) =>
    (⟨h.some, h.span⟩ : us ≠ [] ∧ c.span = extent o us)
  have width_le : width ts ≤ Source.byteLength source := by
    obtain ⟨before, after, rfl, -⟩ := holds
    simp only [Source.byteLength_append, width]
    omega
  refine ⟨((laid.arranged spans).left (Nat.zero_le _)).right (by omega), ?_⟩
  exact laid.forall fun _ _ _ placed => ordered_of_placed placed

/-- Rewriting a file that does not define the library gives the text by recursion:
the source with the outermost checked operations of the contracts that change
replaced, the library before the first of these, and the directive in each. -/
theorem harden_text {u : SourceUnit Ty} (accepted : source.front = .ok u)
    (undefined : ∀ c ∈ u.contracts, isLibraryName c.name.text = false) :
    (harden source u).text =
      replaced source ⟨0, Source.byteLength source⟩ (filePatches source true u.contracts) := by
  obtain ⟨parts, ordered⟩ := ordered_contracts accepted
  have entries := rewriteContracts_adds source parts ordered
    (p := ⟨.empty, ⟨[], false, false⟩⟩) (.nil (Nat.le_refl _))
  have own : (u.contracts.any fun c => isLibraryName c.name.text) = false := by
    simpa using undefined
  unfold harden
  simp only [own, Bool.false_eq_true, if_false]
  have around : Around ⟨0, Source.byteLength source⟩
      (u.contracts.foldl (rewriteContract source) ⟨.empty, ⟨[], false, false⟩⟩).pending []
      (filePatches source true u.contracts) [] :=
    ⟨by simpa [Edits.empty] using entries, ⟨0, .nil (Nat.le_refl _)⟩,
      arranged_filePatches parts ordered true, _, .nil (Nat.le_refl _)⟩
  exact around.extract.1

/-- A file in which a sum is replaced. -/
def sumSource : Source := "contract C \x7b uint a; uint b = a + a; \x7d".toList

theorem harden_text_sum : ∃ u, sumSource.front = .ok u ∧ u.contracts.all changes = true ∧
    (∀ c ∈ u.contracts, isLibraryName c.name.text = false) ∧
    (harden sumSource u).text =
      replaced sumSource ⟨0, Source.byteLength sumSource⟩ (filePatches sumSource true u.contracts) := by
  have accepted : (match sumSource.front with
      | .ok u => u.contracts.all changes && u.contracts.all fun c => !isLibraryName c.name.text
      | .error _ => false) = true := by
    decide +kernel
  cases found : sumSource.front with
  | error ds => simp [found] at accepted
  | ok u =>
      simp only [found, Bool.and_eq_true] at accepted
      have undefined : ∀ c ∈ u.contracts, isLibraryName c.name.text = false := by
        simpa using accepted.2
      exact ⟨u, rfl, accepted.1, undefined, harden_text found undefined⟩

end SafeSubset.Checked
