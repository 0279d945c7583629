import SafeSubset.Proofs.Checked.Text

/-! The report on a rewritten file. It follows from the contracts alone: what each
is called, whether it attaches the library, and how many checked operations it has. -/
namespace SafeSubset.Checked

variable {source : Source} {u : SourceUnit Ty} {cs : List (Contract Ty)} {c : Contract Ty}

/-- The number of checked operations in a contract. -/
def operationCount (c : Contract Ty) : Nat := c.expressions.countP fun e => (operation? e).isSome

/-- What happens to a contract of a file that is rewritten. -/
def statusOf (c : Contract Ty) : Status :=
  if attachesLibrary c then .optedIn
  else if operationCount c = 0 then .unchanged
  else .rewritten (operationCount c)

theorem changes_iff (c : Contract Ty) : changes c = true ↔ 0 < (statusOf c).operations := by
  have some : (c.expressions.any fun e => (operation? e).isSome) = true ↔ operationCount c ≠ 0 := by
    rw [operationCount, Ne, List.countP_eq_zero]
    simp [Option.isSome_iff_ne_none]
  rw [changes_eq]
  unfold statusOf
  cases attaches : attachesLibrary c with
  | true => simp [Status.operations]
  | false =>
      simp only [Bool.not_false, Bool.true_and, some, Bool.false_eq_true, if_false]
      split
      · next none => simp [none, Status.operations]
      · next some => simp [some, Status.operations, Nat.pos_iff_ne_zero]

theorem report_rewriteContract (source : Source) (p : FileProgress) (c : Contract Ty) :
    (rewriteContract source p c).report =
      { p.report with
        contracts := p.report.contracts ++ [⟨c.name.text, statusOf c⟩]
        libraryInjected := p.report.libraryInjected || changes c
        libraryDefined := p.report.libraryDefined && !changes c } := by
  have count := operations_visits source c.expressions ⟨p.pending, 0⟩
  unfold rewriteContract
  cases attaches : attachesLibrary c with
  | true => simp [changes_eq, statusOf, attaches]
  | false =>
      simp only [Bool.false_eq_true, if_false]
      rw [Nat.zero_add] at count
      generalize c.expressions.foldl (visit source) ⟨p.pending, 0⟩ = done at count ⊢
      have count : done.operations = operationCount c := count
      have status : statusOf c = if operationCount c = 0 then .unchanged else .rewritten (operationCount c) := by
        simp [statusOf, attaches]
      have changed := changes_iff c
      rw [status] at changed ⊢
      rw [count]
      by_cases none : operationCount c = 0
      · have same : changes c = false := by
          rw [← Bool.not_eq_true, changed]
          simp [none, Status.operations]
        simp [none, same]
      · have same : changes c = true := by
          rw [changed]
          simp [none, Status.operations, Nat.pos_iff_ne_zero]
        simp [none, same]

/-- Rewriting contracts reports on each of them. -/
theorem report_rewriteContracts (source : Source) (cs : List (Contract Ty)) (p : FileProgress) :
    (cs.foldl (rewriteContract source) p).report =
      { contracts := p.report.contracts ++ cs.map fun c => ⟨c.name.text, statusOf c⟩
        libraryInjected := p.report.libraryInjected || cs.any changes
        libraryDefined := p.report.libraryDefined && !cs.any changes } := by
  induction cs generalizing p with
  | nil => simp
  | cons c cs ih =>
      rw [List.foldl_cons, ih, report_rewriteContract]
      simp [Bool.or_assoc, Bool.and_assoc]

theorem harden_report (source : Source) (u : SourceUnit Ty) :
    (harden source u).report =
      if u.contracts.any fun c => isLibraryName c.name.text then ⟨[], false, true⟩
      else ⟨u.contracts.map fun c => ⟨c.name.text, statusOf c⟩, u.contracts.any changes, false⟩ := by
  unfold harden
  split
  · rfl
  · simp [report_rewriteContracts]

/-- Operations are replaced where they are in one of the contracts. -/
theorem operations_pos (r : Report) : 0 < r.operations ↔ ∃ c ∈ r.contracts, 0 < c.status.operations := by
  have total : ∀ n, 0 < r.contracts.foldl (fun n c => n + c.status.operations) n ↔
      0 < n ∨ ∃ c ∈ r.contracts, 0 < c.status.operations := by
    induction r.contracts with
    | nil => simp
    | cons c cs ih =>
        intro n
        rw [List.foldl_cons, ih, List.exists_mem_cons_iff, ← or_assoc, Nat.add_pos_iff_pos_or_pos]
  exact (total 0).trans (or_iff_right (Nat.lt_irrefl 0))

/-- Operations are replaced where a contract changes and the file does not define the
library. -/
theorem operations_pos_iff (source : Source) (u : SourceUnit Ty) :
    0 < (harden source u).report.operations ↔
      (u.contracts.any fun c => isLibraryName c.name.text) = false ∧ ∃ c ∈ u.contracts, changes c = true := by
  rw [harden_report, operations_pos]
  cases u.contracts.any fun c => isLibraryName c.name.text with
  | true => simp
  | false => simp [changes_iff]

end SafeSubset.Checked
