import SafeSubset.Proofs.Checked.Again
import SafeSubset.Proofs.Checked.Tree
import SafeSubset.Proofs.Source.Nest

/-! What the report says is so. It has an entry for each contract, which tells whether the
contract attaches the library and counts the expressions in it that the rewriting is about, and
it has no operation exactly where the text is that of the file: the library, which is put in
wherever something is replaced, starts otherwise than the contract before which it stands. -/
namespace SafeSubset.Checked

variable {source : Source} {u : SourceUnit Ty} {c : Contract Ty}

/-- The number of expressions in the arguments of the bases and in the members that are
replaced. -/
def firings (c : Contract Ty) : Nat := c.expressions.countP fun e => decide (Fires e)

/-- The entry is true of the contract. -/
structure Reports (c : Contract Ty) (entry : ContractReport) : Prop where
  name : entry.name = c.name.text
  optedIn : entry.status = .optedIn ↔ Attaches c
  rewritten (n : Nat) : entry.status = .rewritten n ↔ ¬ Attaches c ∧ n = firings c ∧ n ≠ 0
  unchanged : entry.status = .unchanged ↔ ¬ Attaches c ∧ firings c = 0

theorem firings_eq (c : Contract Ty) : operationCount c = firings c := by
  unfold operationCount firings
  congr 1
  funext e
  exact (decide_fires e).symm

theorem reports_statusOf (c : Contract Ty) : Reports c ⟨c.name.text, statusOf c⟩ := by
  have attaches := attaches_iff c
  unfold statusOf
  rw [firings_eq]
  by_cases own : attachesLibrary c = true
  · have own' := attaches.1 own
    rw [if_pos own]
    exact ⟨rfl, by simp [own'], fun n => by simp [own'], by simp [own']⟩
  · have own' : ¬ Attaches c := mt attaches.2 own
    rw [if_neg own]
    by_cases none : firings c = 0
    · rw [if_pos none]
      refine ⟨rfl, by simp [own'], fun n => ?_, by simp [own', none]⟩
      simp only [reduceCtorEq, false_iff]
      rintro ⟨-, rfl, some⟩
      exact some none
    · rw [if_neg none]
      refine ⟨rfl, by simp [own'], fun n => ?_, by simp [none]⟩
      simp only [Status.rewritten.injEq]
      constructor
      · rintro rfl
        exact ⟨own', rfl, none⟩
      · rintro ⟨-, rfl, -⟩
        rfl

theorem changes_iff_rewritten (c : Contract Ty) :
    changes c = true ↔ ∃ n, statusOf c = .rewritten n := by
  rw [changes_iff]
  constructor
  · intro some
    cases status : statusOf c with
    | rewritten n => exact ⟨n, rfl⟩
    | optedIn | unchanged =>
        rw [status] at some
        cases some
  · rintro ⟨n, status⟩
    rw [status]
    exact Nat.pos_of_ne_zero (((reports_statusOf c).rewritten n).1 status).2.2

/-- Where something is replaced the text is another one. -/
theorem text_ne_of_operations (accepted : source.front = .ok u)
    (some : 0 < (harden source u).report.operations) : (harden source u).text ≠ source := by
  obtain ⟨undefined, changed⟩ := (operations_pos_iff source u).1 some
  obtain ⟨c, inside, z, text⟩ := text_of_changes accepted undefined changed
  obtain ⟨before, t, us, tail, cut, -, start⟩ := tops_before_contract accepted inside
  obtain ⟨-, -, -, solid⟩ := cuts_here cut rfl
  obtain ⟨x, whole⟩ := split_before cut
  obtain ⟨lines, newline⟩ := library_newline
  obtain ⟨d, ds, chars⟩ := List.exists_cons_of_ne_nil t.chars_ne
  rw [text, start, slice_before cut, newline]
  intro same
  -- A contract starts with a token, and no token with a line break.
  have rest := List.append_cancel_left (same.trans whole)
  rw [chars] at rest
  have first := solid d (by rw [chars]; rfl)
  rw [← (List.cons.inj rest).1] at first
  exact absurd first (by decide)

/-- A file that defines the library is left as it is and nothing is reported on it. Of any other
one the report tells, contract by contract, what became of it; the library is put in where one of
them was rewritten, and the text is that of the file where nothing was replaced. -/
theorem report_true (accepted : source.front = .ok u) :
    ((∃ c ∈ u.contracts, isLibraryName c.name.text = true) →
      (harden source u).text = source ∧ (harden source u).report = ⟨[], false, true⟩) ∧
    ((∀ c ∈ u.contracts, isLibraryName c.name.text = false) →
      (u.contracts.map Contract.span).Pairwise (fun a b => a.stop ≤ b.start) ∧
      List.Forall₂ Reports u.contracts (harden source u).report.contracts ∧
      ((harden source u).report.libraryInjected = true ↔
        ∃ entry ∈ (harden source u).report.contracts, ∃ n, entry.status = .rewritten n) ∧
      (harden source u).report.libraryDefined = false ∧
      ((harden source u).text = source ↔ (harden source u).report.operations = 0)) := by
  constructor
  · intro defined
    have own : (u.contracts.any fun c => isLibraryName c.name.text) = true := List.any_eq_true.2 defined
    rw [harden, if_pos own]
    exact ⟨rfl, rfl⟩
  · intro undefined
    have own : ¬ (u.contracts.any fun c => isLibraryName c.name.text) = true := by simpa using undefined
    have report := harden_report source u
    rw [if_neg own] at report
    have same : (harden source u).text = source ↔ (harden source u).report.operations = 0 := by
      refine ⟨fun same => ?_, harden_unchanged accepted⟩
      by_contra some
      exact text_ne_of_operations accepted (Nat.pos_of_ne_zero some) same
    refine ⟨(ordered_contracts accepted).1.pairwise, ?_, ?_, ?_, same⟩
    · rw [report, List.forall₂_map_right_iff, List.forall₂_same]
      exact fun c _ => reports_statusOf c
    · rw [report]
      simp [changes_iff_rewritten]
    · rw [report]

/-- A file in which one contract attaches the library, one is rewritten twice and one has
nothing to replace. -/
def threefoldSource : Source :=
  ("contract A \x7b using safemath for uint; uint a = 1; uint b = a + a; \x7d " ++
   "contract B \x7b uint a; uint b = a + a * a; \x7d contract C \x7b \x7d").toList

theorem report_true_threefold : ∃ u, threefoldSource.front = .ok u ∧
    (harden threefoldSource u).report.contracts =
      [⟨"A", .optedIn⟩, ⟨"B", .rewritten 2⟩, ⟨"C", .unchanged⟩] ∧
    (harden threefoldSource u).report.libraryInjected = true ∧
    (harden threefoldSource u).text ≠ threefoldSource := by
  have accepted : threefoldSource.front.toOption.any (fun u =>
      (u.contracts.all fun c => !isLibraryName c.name.text) &&
        decide ((harden threefoldSource u).report.contracts =
          [⟨"A", .optedIn⟩, ⟨"B", .rewritten 2⟩, ⟨"C", .unchanged⟩])) = true := by
    decide +kernel
  obtain ⟨u, found, holds⟩ := exists_of_any accepted
  rw [Bool.and_eq_true, decide_eq_true_eq, List.all_eq_true] at holds
  obtain ⟨undefined, entries⟩ := holds
  obtain ⟨-, -, injected, -, same⟩ := (report_true found).2 fun c member => by
    simpa using undefined c member
  refine ⟨u, found, entries, injected.2 ?_, fun kept => ?_⟩
  · rw [entries]
    exact ⟨_, List.mem_cons_of_mem _ List.mem_cons_self, 2, rfl⟩
  · have none := same.1 kept
    rw [Report.operations, entries] at none
    cases none

end SafeSubset.Checked
