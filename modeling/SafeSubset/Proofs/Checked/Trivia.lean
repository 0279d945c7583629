import SafeSubset.Proofs.Calls.Stripped
import SafeSubset.Proofs.Checked.Report
import SafeSubset.Proofs.Grammar.Respaced
import SafeSubset.Proofs.Typing.Stripped

/-! White space and comments never influence a result. Two files with the same words are
read to the same unit but for places, so they are typed alike, have the same graph, and
are rewritten with the same report. -/
namespace SafeSubset

open Token (Faultless words)

namespace Checked

theorem operation_stripped (e : Expr Ty) : operation? e.stripped = operation? e := by
  cases e with
  | index i base k => cases k <;> rfl
  | assign i op l r => simp only [Expr.stripped, operation?, Typing.type_stripped]
  | _ => rfl

theorem operationCount_stripped (c : Contract Ty) : operationCount c.stripped = operationCount c := by
  simp only [operationCount, Contract.expressions_stripped, List.countP_map, Function.comp_def,
    operation_stripped]

theorem attachesLibrary_stripped (c : Contract Ty) : attachesLibrary c.stripped = attachesLibrary c := by
  simp only [attachesLibrary, Contract.directives_stripped, List.any_map]
  rfl

theorem statusOf_stripped (c : Contract Ty) : statusOf c.stripped = statusOf c := by
  simp only [statusOf, attachesLibrary_stripped, operationCount_stripped]

theorem changes_stripped (c : Contract Ty) : changes c.stripped = changes c := by
  rw [Bool.eq_iff_iff, changes_iff, changes_iff, statusOf_stripped]

/-- The report has no part in the text and in places. -/
theorem harden_report_stripped (source source' : Source) (u : SourceUnit Ty) :
    (harden source' u.stripped).report = (harden source u).report := by
  have library : ∀ c : Contract Ty, isLibraryName c.stripped.name.text = isLibraryName c.name.text :=
    fun _ => rfl
  have entry : ∀ c : Contract Ty, (⟨c.stripped.name.text, statusOf c.stripped⟩ : ContractReport) =
      ⟨c.name.text, statusOf c⟩ := fun c => by rw [statusOf_stripped]; rfl
  simp only [harden_report, SourceUnit.contracts_stripped, List.any_map, List.map_map,
    Function.comp_def, library, entry, changes_stripped]

end Checked

/-- Of two files without faults and with the same words, both are read or neither is. Where
they are, the units are the same but for places and for what stands between a number and
its unit; expressions in the same place of the tree have the same type; the graphs have the
same functions, edges, verdict and cycle; and rewriting reports the same. -/
theorem Source.same_results_of_words {source source' : Source} (faultless : Faultless source)
    (faultless' : Faultless source') (same : words source = words source') :
    (∃ f f', source.parse.unit = .error f ∧ source'.parse.unit = .error f') ∨
      ∃ u u', source.parse.unit = .ok u ∧ source'.parse.unit = .ok u' ∧ u.stripped = u'.stripped ∧
        u.annotate.stripped = u'.annotate.stripped ∧
        u.annotate.expressions.map Expr.type = u'.annotate.expressions.map Expr.type ∧
        (∀ check, (u.annotate.callGraph check).stripped = (u'.annotate.callGraph check).stripped ∧
          (u.annotate.callGraph check).isClean = (u'.annotate.callGraph check).isClean) ∧
        (Checked.harden source u.annotate).report = (Checked.harden source' u'.annotate).report := by
  cases read : source.parse.unit with
  | error f =>
      cases read' : source'.parse.unit with
      | error f' => exact .inl ⟨f, f', rfl, rfl⟩
      | ok u' =>
          obtain ⟨u, other, -⟩ := parse_of_words faultless' faultless same.symm read'
          exact absurd (read.symm.trans other) (by simp)
  | ok u =>
      obtain ⟨u', read', alike⟩ := parse_of_words faultless faultless' same read
      have typed : u.annotate.stripped = u'.annotate.stripped := by
        rw [← SourceUnit.annotate_stripped, ← alike, SourceUnit.annotate_stripped]
      have types : ∀ v : SourceUnit Ty,
          v.stripped.expressions.map Expr.type = v.expressions.map Expr.type := by
        intro v
        simp only [SourceUnit.expressions_stripped, List.map_map, Function.comp_def,
          Typing.type_stripped]
      refine .inr ⟨u, u', rfl, read', alike.symm, typed, ?_, fun check => ?_, ?_⟩
      · rw [← types, typed, types]
      · have graphs : (u.annotate.callGraph check).stripped = (u'.annotate.callGraph check).stripped := by
          rw [← SourceUnit.callGraph_stripped, typed, SourceUnit.callGraph_stripped]
        refine ⟨graphs, ?_⟩
        rw [← Calls.Graph.isClean_stripped, graphs, Calls.Graph.isClean_stripped]
      · rw [← Checked.harden_report_stripped source source, typed, Checked.harden_report_stripped source']

/-- A file with a sum to rewrite and a function that calls itself. -/
def denseSource : Source := "contract C\x7buint a=1 days;function f()\x7ba+=1;f();\x7d\x7d".toList

/-- The same words with a comment before the unit of a number, and others elsewhere. -/
def looseSource : Source :=
  "contract C \x7b //\n uint a = 1/**/days; function f() \x7b a += 1 ; f( ) ; \x7d \x7d\n".toList

theorem Source.same_results_of_words_loose :
    Faultless denseSource ∧ Faultless looseSource ∧ words denseSource = words looseSource ∧
      ∃ u u', denseSource.parse.unit = .ok u ∧ looseSource.parse.unit = .ok u' ∧
        u.stripped = u'.stripped ∧
        u.annotate.expressions.map Expr.type = u'.annotate.expressions.map Expr.type ∧
        (u.annotate.callGraph true).stripped = (u'.annotate.callGraph true).stripped ∧
        (u.annotate.callGraph true).isClean = false ∧
        (Checked.harden denseSource u.annotate).report = (Checked.harden looseSource u'.annotate).report ∧
        (Checked.harden denseSource u.annotate).report.operations = 1 := by
  have faultless : Faultless denseSource := by unfold Faultless; decide +kernel
  have faultless' : Faultless looseSource := by unfold Faultless; decide +kernel
  have same : words denseSource = words looseSource := by decide +kernel
  have facts : denseSource.parse.unit.toOption.any (fun u => !(u.annotate.callGraph true).isClean &&
      (Checked.harden denseSource u.annotate).report.operations == 1) = true := by decide +kernel
  obtain ⟨u, read, facts⟩ := exists_of_any facts
  simp only [Bool.and_eq_true, Bool.not_eq_true', beq_iff_eq] at facts
  rcases Source.same_results_of_words faultless faultless' same with
    ⟨f, f', failed, -⟩ | ⟨v, u', read', other, units, -, types, graphs, report⟩
  · exact absurd (read.symm.trans failed) (by simp)
  · obtain rfl := Except.ok.inj (read.symm.trans read')
    exact ⟨faultless, faultless', same, u, u', read, other, units, types, (graphs true).1, facts.1, report, facts.2⟩

end SafeSubset
