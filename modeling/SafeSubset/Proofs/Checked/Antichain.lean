import SafeSubset.Proofs.Checked.Text
import SafeSubset.Proofs.Edits.Apart
import SafeSubset.Proofs.Grammar.Clearance

/-! The calls on what is pending by which a file is rewritten. A visit consumes the operands
of a checked operation and records the text for it; when all expressions of a contract have
been visited, the library and the directive are put in. At each of these calls no pending
edit reaches into another, and what is recorded is related to none of them. -/
namespace SafeSubset.Checked

open Edits (Call Fits Fitting run apart_of_arranged)

variable {source : Source} {lo hi o : Nat} {es : List (Expr Ty)} {e : Expr Ty} {c : Contract Ty}
  {cs : List (Contract Ty)}

/-- The calls of a visit. -/
def visitCalls (source : Source) (p : Progress) (e : Expr Ty) : List Call :=
  match operation? e with
  | none => []
  | some op =>
      e.children.map (fun c => .consume c.span) ++
        [.insert e.span (operationText source p.pending op e).1]

/-- The calls of some visits, one after the other. -/
def visitsCalls (source : Source) : Progress → List (Expr Ty) → List Call
  | _, [] => []
  | p, e :: es => visitCalls source p e ++ visitsCalls source (visit source p e) es

/-- The calls that put in what stands before the members of a contract that changes, and
before the first one of these. -/
def markerCalls (injected : Bool) (c : Contract Ty) : List Call :=
  (if injected then [] else [.insertAt c.span.start librarySource]) ++
    [.insertAt (directivePlace c) directiveSource]

/-- The calls by which a contract is rewritten. -/
def contractCalls (source : Source) (p : FileProgress) (c : Contract Ty) : List Call :=
  if attachesLibrary c then []
  else
    let done := c.expressions.foldl (visit source) ⟨p.pending, 0⟩
    visitsCalls source ⟨p.pending, 0⟩ c.expressions ++
      if done.operations = 0 then [] else markerCalls p.report.libraryInjected c

def contractsCalls (source : Source) : FileProgress → List (Contract Ty) → List Call
  | _, [] => []
  | p, c :: cs => contractCalls source p c ++ contractsCalls source (rewriteContract source p c) cs

/-- The calls by which a file is rewritten, before the whole of it is read. -/
def fileCalls (source : Source) (u : SourceUnit Ty) : List Call :=
  if u.contracts.any fun c => isLibraryName c.name.text then []
  else contractsCalls source ⟨.empty, ⟨[], false, false⟩⟩ u.contracts

section States

/-- What is pending after a visit is pending after its calls. -/
theorem run_visitCalls (p : Progress) :
    run source p.pending (visitCalls source p e) = (visit source p e).pending := by
  unfold visitCalls visit
  cases fires : operation? e with
  | none => rfl
  | some op =>
      cases e with
      | binary i op l r | assign i op l r => rfl
      | _ => contradiction

theorem run_visitsCalls (p : Progress) :
    run source p.pending (visitsCalls source p es) = (es.foldl (visit source) p).pending := by
  induction es generalizing p with
  | nil => rfl
  | cons e es ih => rw [visitsCalls, Edits.run_append, run_visitCalls, ih, List.foldl_cons]

theorem run_contractCalls (p : FileProgress) :
    run source p.pending (contractCalls source p c) = (rewriteContract source p c).pending := by
  unfold contractCalls rewriteContract
  split
  · rfl
  · have visited : run source p.pending (visitsCalls source ⟨p.pending, 0⟩ c.expressions) =
        (c.expressions.foldl (visit source) ⟨p.pending, 0⟩).pending := run_visitsCalls ⟨p.pending, 0⟩
    simp only [Edits.run_append, visited]
    split
    · rfl
    · cases h : p.report.libraryInjected <;> rfl

theorem run_contractsCalls (p : FileProgress) :
    run source p.pending (contractsCalls source p cs) =
      (cs.foldl (rewriteContract source) p).pending := by
  induction cs generalizing p with
  | nil => rfl
  | cons c cs ih => rw [contractsCalls, Edits.run_append, run_contractCalls, ih, List.foldl_cons]

end States

section Visits

theorem visitsCalls_append (p : Progress) (es ds : List (Expr Ty)) :
    visitsCalls source p (es ++ ds) =
      visitsCalls source p es ++ visitsCalls source (es.foldl (visit source) p) ds := by
  induction es generalizing p with
  | nil => rfl
  | cons e es ih => simp [visitsCalls, ih]

/-- The calls of visiting `es` fit, whatever is pending before `o`. -/
def VisitsFit (source : Source) (o : Nat) (es : List (Expr Ty)) : Prop :=
  ∀ (p : Progress), Arranged 0 (p.pending.entries.map Prod.fst) o →
    Fitting source p.pending (visitsCalls source p es)

theorem visitsFit_all (parts : Arranged o (es.map Expr.span) hi) (nested : ∀ e ∈ es, e.Nested)
    (each : ∀ e ∈ es, VisitsFit source e.span.start e.subexpressions) :
    VisitsFit source o (es.flatMap Expr.subexpressions) := by
  intro p before
  induction es generalizing o p with
  | nil => exact Edits.fitting_nil
  | cons e es ih =>
      obtain ⟨-⟩ | ⟨from_le, -, -, rest⟩ := parts
      have own := nested e List.mem_cons_self
      have here := before.right from_le
      have added : (e.subexpressions.foldl (visit source) p).pending.entries =
          p.pending.entries ++ patches source e := adds_expression own p here
      rw [List.flatMap_cons, visitsCalls_append, Edits.fitting_append, run_visitsCalls]
      refine ⟨each e List.mem_cons_self p here, ?_⟩
      apply ih rest (fun d hd => nested d (List.mem_cons_of_mem e hd))
        (fun d hd => each d (List.mem_cons_of_mem e hd))
      rw [added, List.map_append]
      exact here.append (arranged_patches source own)

/-- Two operands are consumed, and the text for the operation is recorded. -/
theorem fitting_operation {l r : Expr Ty} {pending : Edits} {pre : List Edit} {text : Source}
    (nested : e.Nested) (children : e.children = [l, r])
    (before : Arranged 0 (pre.map Prod.fst) e.span.start)
    (entries : pending.entries = pre ++ e.children.flatMap (patches source)) :
    Fitting source pending [.consume l.span, .consume r.span, .insert e.span text] := by
  obtain ⟨wide, parts, -, inner⟩ := nested
  have apart : pending.Apart := by
    apply apart_of_arranged
    rw [entries, List.map_append]
    exact before.append (arranged_flatMap source parts inner)
  rw [children] at parts entries inner
  obtain ⟨from_le, behind⟩ := Arranged.pair parts
  obtain ⟨-, -, -, remaining⟩ := consume_operands (inner l (by simp)) (inner r (by simp)) behind
    (before.right from_le) (by simpa using entries)
  have first : ((pending.consume source l.span).2).Apart := apart.subset fun _ => Edits.mem_consume
  have second : ((pending.consume source l.span).2.consume source r.span).2.Apart :=
    first.subset fun _ => Edits.mem_consume
  refine Edits.fitting_cons.2 ⟨⟨apart, by simp [Call.recorded?]⟩, ?_⟩
  refine Edits.fitting_cons.2 ⟨⟨first, by simp [Call.recorded?]⟩, ?_⟩
  refine Edits.fitting_cons.2 ⟨⟨second, ?_⟩, Edits.fitting_nil⟩
  intro s recorded d member
  obtain rfl : s = e.span := by simpa [Call.recorded?, eq_comm] using recorded
  have known : d ∈ pre := remaining ▸ member
  obtain ⟨-, starts, -, stops⟩ := before.bounds (List.mem_map_of_mem known)
  exact Span.unrelated_behind wide starts stops

/-- The calls of a visit fit when the children have been visited. -/
theorem fitting_visit {p : Progress} {pre : List Edit} (nested : e.Nested)
    (before : Arranged 0 (pre.map Prod.fst) e.span.start)
    (entries : p.pending.entries = pre ++ e.children.flatMap (patches source)) :
    Fitting source p.pending (visitCalls source p e) := by
  unfold visitCalls
  cases fires : operation? e with
  | none => exact Edits.fitting_nil
  | some o =>
      cases e with
      | binary i op l r | assign i op l r => exact fitting_operation nested rfl before entries
      | _ => contradiction

theorem visitsFit_expression (nested : e.Nested) : VisitsFit source e.span.start e.subexpressions := by
  induction nested with
  | @node e wide parts proper inner ih =>
      intro p before
      have children : ((e.children.flatMap Expr.subexpressions).foldl (visit source) p).pending.entries =
          p.pending.entries ++ e.children.flatMap (patches source) :=
        adds_all parts inner (fun d hd => adds_expression (inner d hd)) p before
      rw [Expr.subexpressions_eq, visitsCalls_append, Edits.fitting_append, run_visitsCalls]
      refine ⟨visitsFit_all parts inner ih p before, ?_⟩
      rw [visitsCalls, visitsCalls, List.append_nil]
      exact fitting_visit (.node wide parts proper inner) before children

end Visits

section Contracts

variable (ordered : Ordered c) (clear : c.Clear)

/-- What is replaced in an expression starts and stops in it. -/
theorem patches_inside {d : Edit} (nested : ∀ e ∈ es, e.Nested)
    (member : d ∈ es.flatMap (patches source)) :
    ∃ e ∈ es, e.span.start ≤ d.1.start ∧ d.1.start ≤ d.1.stop ∧ d.1.stop ≤ e.span.stop := by
  obtain ⟨e, inside, member⟩ := List.mem_flatMap.1 member
  obtain ⟨le, -, forward, stop⟩ := (arranged_patches source (nested e inside)).bounds
    (List.mem_map_of_mem member)
  exact ⟨e, inside, le, forward, stop⟩

/-- A pending edit starts behind a place, or stops before it. -/
def Off (n : Nat) (d : Edit) : Prop :=
  d.1.start ≤ d.1.stop ∧ (d.1.stop < n ∨ n < d.1.start)

theorem fits_insertAt {pending : Edits} {n : Nat} {text : Source} (apart : pending.Apart)
    (off : ∀ d ∈ pending.entries, Off n d) : Fits pending (.insertAt n text) where
  apart := apart
  unrelated s recorded d member := by
    obtain rfl : s = .point n := by simpa [Call.recorded?, eq_comm] using recorded
    exact Span.unrelated_point (off d member).1 (off d member).2

include ordered clear

/-- What is replaced in a contract stays off its start. -/
theorem off_start : ∀ d ∈ c.roots.flatMap (patches source), Off c.span.start d := by
  intro d member
  obtain ⟨e, root, starts, forward, -⟩ := patches_inside ordered.nested member
  have := clear.start e root
  exact ⟨forward, .inr (by omega)⟩

/-- What is pending stops before the members start, or starts behind that. -/
theorem off_entry {pre : List Edit} (before : Arranged 0 (pre.map Prod.fst) c.span.start) :
    ∀ d ∈ pre ++ c.roots.flatMap (patches source), Off c.entry d := by
  have after := ordered.entry.1
  intro d member
  rw [Contract.roots, List.flatMap_append] at member
  rcases List.mem_append.1 member with member | member
  · obtain ⟨-, -, forward, stops⟩ := before.bounds (List.mem_map_of_mem member)
    exact ⟨forward, .inl (by omega)⟩
  · rcases List.mem_append.1 member with member | member
    · obtain ⟨e, root, -, forward, stops⟩ := patches_inside
        (fun e root => ordered.nested e (List.mem_append.2 (.inl root))) member
      have := clear.bases e root
      exact ⟨forward, .inl (by omega)⟩
    · obtain ⟨e, root, starts, forward, -⟩ := patches_inside
        (fun e root => ordered.nested e (List.mem_append.2 (.inr root))) member
      have := clear.members e root
      exact ⟨forward, .inr (by omega)⟩

/-- The places where text is put in are in no expression and touch none. -/
theorem fitting_markers {pending : Edits} {pre : List Edit} {injected : Bool}
    (before : Arranged 0 (pre.map Prod.fst) c.span.start) (none : injected = false → pre = [])
    (entries : pending.entries = pre ++ c.roots.flatMap (patches source)) :
    Fitting source pending (markerCalls injected c) := by
  have inside := arranged_flatMap source (arranged_roots ordered) ordered.nested
  have apart : pending.Apart := by
    apply apart_of_arranged
    rw [entries, List.map_append]
    exact before.append inside
  have directive : ∀ d ∈ pending.entries, Off c.entry d := entries ▸ off_entry ordered clear before
  unfold markerCalls
  rw [directivePlace_eq]
  cases injected with
  | true => exact Edits.fitting_cons.2 ⟨fits_insertAt apart directive, Edits.fitting_nil⟩
  | false =>
      obtain rfl := none rfl
      have placed : (pending.insertAt c.span.start librarySource).entries =
          (.point c.span.start, librarySource) :: c.roots.flatMap (patches source) :=
        insert_library ordered (by simp) entries
      have after := ordered.entry.1
      have row : Arranged c.span.start
          ((pending.insertAt c.span.start librarySource).entries.map Prod.fst) c.span.stop := by
        rw [placed]
        exact .cons (Nat.le_refl _) (Nat.lt_trans after ordered.entry.2) (Nat.le_refl _) inside
      refine Edits.fitting_cons.2 ⟨fits_insertAt apart ?_, ?_⟩
      · rw [entries]
        exact off_start ordered clear
      · refine Edits.fitting_cons.2 ⟨fits_insertAt (apart_of_arranged row) fun d member => ?_,
          Edits.fitting_nil⟩
        have member : d ∈ (pending.insertAt c.span.start librarySource).entries := member
        rw [placed] at member
        rcases List.mem_cons.1 member with rfl | member
        · exact ⟨Nat.le_refl _, .inl after⟩
        · exact directive d (by rwa [entries])

/-- The calls by which a contract is rewritten fit what is pending before it. -/
theorem fitting_contract {p : FileProgress}
    (before : Arranged 0 (p.pending.entries.map Prod.fst) c.span.start)
    (none : p.report.libraryInjected = false → p.pending.entries = []) :
    Fitting source p.pending (contractCalls source p c) := by
  have visits : Fitting source p.pending (visitsCalls source ⟨p.pending, 0⟩ c.expressions) := by
    rw [Contract.expressions_eq]
    exact visitsFit_all (arranged_roots ordered) ordered.nested
      (fun e member => visitsFit_expression (ordered.nested e member)) ⟨p.pending, 0⟩ before
  have visited := visits_contract ordered source (p := ⟨p.pending, 0⟩) before
  have states : run source p.pending (visitsCalls source ⟨p.pending, 0⟩ c.expressions) =
      (c.expressions.foldl (visit source) ⟨p.pending, 0⟩).pending := run_visitsCalls ⟨p.pending, 0⟩
  unfold contractCalls
  split
  · exact Edits.fitting_nil
  · refine Edits.fitting_append.2 ⟨visits, ?_⟩
    split
    · exact Edits.fitting_nil
    · rw [states]
      exact fitting_markers ordered clear before none visited

end Contracts

/-- The calls by which contracts are rewritten one after the other. -/
theorem fitting_contracts (parts : Arranged lo (cs.map Contract.span) hi)
    (ordered : ∀ c ∈ cs, Ordered c) (clear : ∀ c ∈ cs, c.Clear) {p : FileProgress}
    (before : Arranged 0 (p.pending.entries.map Prod.fst) lo)
    (none : p.report.libraryInjected = false → p.pending.entries = []) :
    Fitting source p.pending (contractsCalls source p cs) := by
  induction cs generalizing lo p with
  | nil => exact Edits.fitting_nil
  | cons c cs ih =>
      obtain ⟨-⟩ | ⟨from_le, -, -, rest⟩ := parts
      have own := ordered c List.mem_cons_self
      have here := before.right from_le
      obtain ⟨entries, injected⟩ := rewriteContract_adds own source here
      rw [contractsCalls, Edits.fitting_append, run_contractCalls]
      refine ⟨fitting_contract own (clear c List.mem_cons_self) here none, ?_⟩
      apply ih rest (fun d hd => ordered d (List.mem_cons_of_mem c hd))
        (fun d hd => clear d (List.mem_cons_of_mem c hd)) (arranged_rewriteContract own source here)
      intro still
      rw [injected, Bool.or_eq_false_iff] at still
      rw [entries, still.2, none still.1]
      rfl

section File

variable {u : SourceUnit Ty}

theorem run_fileCalls (undefined : (u.contracts.any fun c => isLibraryName c.name.text) = false) :
    run source .empty (fileCalls source u) =
      (u.contracts.foldl (rewriteContract source) ⟨.empty, ⟨[], false, false⟩⟩).pending := by
  unfold fileCalls
  rw [undefined]
  simp only [Bool.false_eq_true, if_false]
  exact run_contractsCalls ⟨.empty, ⟨[], false, false⟩⟩

theorem fitting_file (accepted : source.front = .ok u) :
    Fitting source .empty (fileCalls source u) := by
  obtain ⟨parts, ordered⟩ := ordered_contracts accepted
  unfold fileCalls
  split
  · exact Edits.fitting_nil
  · exact fitting_contracts parts ordered (Source.front_clear accepted) (p := ⟨.empty, _⟩)
      (.nil (Nat.le_refl 0)) fun _ => rfl

theorem arranged_file (accepted : source.front = .ok u) :
    Arranged 0 ((run source .empty (fileCalls source u)).entries.map Prod.fst)
      (Source.byteLength source) := by
  obtain ⟨parts, ordered⟩ := ordered_contracts accepted
  cases defined : u.contracts.any fun c => isLibraryName c.name.text with
  | true =>
      unfold fileCalls
      rw [defined]
      exact .nil (Nat.zero_le _)
  | false =>
      have entries := rewriteContracts_adds source parts ordered
        (p := ⟨.empty, ⟨[], false, false⟩⟩) (.nil (Nat.le_refl 0))
      rw [run_fileCalls defined, entries]
      exact arranged_filePatches parts ordered true

/-- The pending edits stay apart while an accepted file is rewritten. At every moment no two
of them for stretches share a byte and none for a place is inside one; whatever a call
records is related to none of them; and reading the whole file in the end puts out all that
is pending. -/
theorem rewriting_apart (accepted : source.front = .ok u) :
    let calls := fileCalls source u
    let last := run source .empty calls
    let whole : Call := .extract ⟨0, Source.byteLength source⟩
    (harden source u).text = (if u.contracts.any (fun c => isLibraryName c.name.text) then source
      else whole.answer source last) ∧
    (∀ before behind, calls = before ++ behind → (run source .empty before).Apart) ∧
    (∀ before call behind, calls = before ++ call :: behind → ∀ s ∈ call.recorded?,
      ∀ e ∈ (run source .empty before).entries, s.Unrelated e.1) ∧
    last.isNested = true ∧ whole.emitted last = last.entries ∧
    (whole.apply source last).isEmpty = true := by
  intro calls last whole
  have fitting : Fitting source .empty calls := fitting_file accepted
  have arranged := arranged_file accepted
  have apart : last.Apart := apart_of_arranged arranged
  obtain ⟨all, none⟩ : whole.emitted last = last.entries ∧ (whole.apply source last).entries = [] :=
    Edits.emitted_of_arranged arranged
  refine ⟨?_, fun before behind same => fitting.apart apart same,
    fun before call behind same => (fitting before call behind same).unrelated, apart.isNested,
    all, List.isEmpty_iff.2 none⟩
  unfold harden
  cases undefined : u.contracts.any fun c => isLibraryName c.name.text with
  | true => rfl
  | false =>
      show _ = whole.answer source (run source .empty (fileCalls source u))
      rw [run_fileCalls undefined]
      rfl

/-- A file of two contracts, with a product in a sum in the first. -/
def contractsSource : Source :=
  ("contract C \x7b uint a; uint b = a + a * a; \x7d " ++
    "contract D \x7b uint c; function f() \x7b c -= c; \x7d \x7d").toList

/-- Eight calls for the first contract and four for the second leave five edits pending. -/
theorem rewriting_apart_contracts : ∃ u, contractsSource.front = .ok u ∧
    (fileCalls contractsSource u).length = 12 ∧
    (∀ before behind, fileCalls contractsSource u = before ++ behind →
      (run contractsSource .empty before).Apart) ∧
    (run contractsSource .empty (fileCalls contractsSource u)).entries.length = 5 := by
  have accepted : contractsSource.front.toOption.any (fun u =>
      (fileCalls contractsSource u).length == 12 &&
        (run contractsSource .empty (fileCalls contractsSource u)).entries.length == 5) = true := by
    decide +kernel
  obtain ⟨u, accepted, counted⟩ := exists_of_any accepted
  obtain ⟨calls, pending⟩ := Bool.and_eq_true_iff.1 counted
  obtain ⟨-, apart, -⟩ := rewriting_apart accepted
  exact ⟨u, accepted, beq_iff_eq.1 calls, apart, beq_iff_eq.1 pending⟩

end File

end SafeSubset.Checked
