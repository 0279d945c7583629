import Mathlib.Logic.Relation
import SafeSubset.CommandLine.Files
import SafeSubset.Proofs.Calls.Alike
import SafeSubset.Proofs.Calls.Direct

/-! The verdict of the command. Whatever it is asked to put out, it accepts the same files
with the same reports, and a file that it rejects is not rewritten. -/
namespace SafeSubset

open Relation (TransGen)
open Calls (Graph)

variable {source : Source} {check : Bool} {u : SourceUnit Ty} {ds : List Diagnostic}

/-- The file can be read, and either recursion is not checked or no function reaches itself by
direct calls. -/
def Source.Accepted (source : Source) (check : Bool) : Prop :=
  ∃ v, source.parse.unit = .ok v ∧ source.front = .ok v.annotate ∧
    (check = true → ¬ ∃ f, TransGen v.Calls f f)

section Verdict

theorem SourceUnit.callGraph_annotate (v : SourceUnit Unit) (check : Bool) :
    v.annotate.callGraph check = v.callGraph check := by
  simp only [callGraph, Calls.addUnit_annotate]

/-- A graph that has not been checked has no reports. -/
theorem SourceUnit.callGraph_false (u : SourceUnit Ty) : (u.callGraph false).diagnostics = [] :=
  (Graph.addUnit_extends u .empty).2.2

theorem SourceUnit.isClean_callGraph {v : SourceUnit Unit} (read : source.parse.unit = .ok v) :
    (v.callGraph check).isClean = true ↔ (check = true → ¬ ∃ f, TransGen v.Calls f f) := by
  have built : (Graph.empty.addUnit v).diagnostics = [] := (Graph.addUnit_extends v .empty).2.2
  have clean : (Graph.empty.addUnit v).isClean = true := by
    rw [Graph.isClean_iff, built]
    exact fun d member => absurd member List.not_mem_nil
  rw [← Graph.recursive_iff_calls read]
  cases check with
  | false => simpa [SourceUnit.callGraph] using clean
  | true =>
      simp only [SourceUnit.callGraph, if_true, forall_const]
      constructor
      · intro checked recursive
        obtain ⟨numbers, first, rest, -, same⟩ := Graph.checkRecursion_of_recursive recursive
        rw [same, Graph.isClean_iff] at checked
        exact checked _ (List.mem_append_right _ (List.mem_singleton_self _)) rfl
      · intro acyclic
        rw [Graph.checkRecursion_of_not_recursive acyclic]
        exact clean

/-- A file that can be read is accepted where its graph has no error. -/
theorem Source.accepted_iff (front : source.front = .ok u) :
    source.Accepted check ↔ (u.callGraph check).isClean = true := by
  obtain ⟨v, read, -, rfl⟩ := source.front_annotate front
  rw [v.callGraph_annotate, SourceUnit.isClean_callGraph read]
  constructor
  · rintro ⟨v', read', -, acyclic⟩
    obtain rfl := Except.ok.inj (read.symm.trans read')
    exact acyclic
  · intro acyclic
    exact ⟨v, read, front, acyclic⟩

theorem Source.not_accepted (front : source.front = .error ds) : ¬ source.Accepted check := by
  rintro ⟨v, -, front', -⟩
  cases front.symm.trans front'

end Verdict

section Reviews

variable {options : ReviewOptions} {r : Review}

theorem Source.review_error (front : source.front = .error ds) :
    source.review options = .error ds := by
  simp only [review, front]
  rfl

/-- The reports of a review are those of the graph. -/
theorem Source.review_ok (front : source.front = .ok u) :
    source.review options = .ok
      (let g := u.callGraph options.recursionCheck
       let hardened := if options.harden && g.isClean then some (Checked.harden source u) else none
       ⟨g.diagnostics, hardened, .of source (hardened.map fun h => h.text)⟩) := by
  have reports : (if options.recursionCheck then u.recursionDiagnostics else []) =
      (u.callGraph options.recursionCheck).diagnostics := by
    cases options.recursionCheck with
    | false => exact u.callGraph_false.symm
    | true => rfl
  simp only [review, front, Except.map, reports]
  rfl

end Reviews

namespace CommandLine

/-- What a stage puts out for a file that can be read: the rewritten text only where the file is
accepted, the graph in any case. -/
inductive Emits (source : Source) (check : Bool) : Emit → Source → Prop
  | harden {u : SourceUnit Ty} : source.front = .ok u → source.Accepted check →
      Emits source check .harden (Checked.harden source u).text
  | callgraph {u : SourceUnit Ty} : source.front = .ok u →
      Emits source check .callgraph (u.callGraph check).listing.toList
  | dot {u : SourceUnit Ty} : source.front = .ok u →
      Emits source check .dot (u.callGraph check).graphviz.toList
  | json {u : SourceUnit Ty} : source.front = .ok u →
      Emits source check .json (graphReport (u.callGraph check) source).toList

/-- A stage puts out one text at most. -/
theorem Emits.unique {emit : Emit} {first second : Source} (one : Emits source check emit first)
    (other : Emits source check emit second) : first = second := by
  cases one with
  | harden front =>
      cases other with
      | harden front' => rw [Except.ok.inj (front.symm.trans front')]
  | callgraph front =>
      cases other with
      | callgraph front' => rw [Except.ok.inj (front.symm.trans front')]
  | dot front =>
      cases other with
      | dot front' => rw [Except.ok.inj (front.symm.trans front')]
  | json front =>
      cases other with
      | json front' => rw [Except.ok.inj (front.symm.trans front')]

/-- What a stage puts out is the one text that it does. -/
theorem Emits.some_eq_iff {emit : Emit} {first text : Source} (emits : Emits source check emit first) :
    some first = some text ↔ Emits source check emit text := by
  constructor
  · rintro ⟨⟩
    exact emits
  · intro other
    rw [emits.unique other]

section Plans

variable {request : Request} {text : Source}

theorem plan_error (front : source.front = .error ds) :
    plan request source = rejectionPlan request.path source ds := by
  unfold plan
  -- The equations of the two plans are not used: finding them unfolds the reading of the file.
  cases request.emit with
  | check | harden =>
      delta reviewPlan
      rw [source.review_error front]
  | callgraph | dot | json =>
      delta graphPlan
      rw [front]

/-- The reports and the exit code come from the graph alone. -/
theorem plan_ok (request : Request) (front : source.front = .ok u) :
    (plan request source).reports =
        reportText request.path source (u.callGraph request.recursionCheck).diagnostics ∧
      (plan request source).exitCode =
        verdictCode (u.callGraph request.recursionCheck).isClean := by
  unfold plan
  cases request.emit with
  | check | harden =>
      delta reviewPlan
      rw [source.review_ok front]
      exact ⟨rfl, rfl⟩
  | callgraph | dot | json =>
      delta graphPlan
      rw [front]
      exact ⟨rfl, rfl⟩

/-- The text of a plan is what the stage puts out. -/
theorem plan_text : (plan request source).text = some text ↔
    Emits source request.recursionCheck request.emit text := by
  obtain ⟨path, emit, check, output⟩ := request
  cases front : source.front with
  | error ds =>
      rw [plan_error front]
      constructor
      · rintro ⟨⟩
      · intro emits
        cases emits <;> cases front.symm.trans ‹_›
  | ok u =>
      delta plan reviewPlan graphPlan
      cases emit with
      | check =>
          simp only [source.review_ok front]
          constructor <;> rintro ⟨⟩
      | harden =>
          simp only [source.review_ok front, decide_true, Bool.true_and]
          by_cases accepted : source.Accepted check
          · have clean := (source.accepted_iff front).1 accepted
            simp only [clean, if_true, Option.map_some]
            exact (Emits.harden front accepted).some_eq_iff
          · have unclean := mt (source.accepted_iff front).2 accepted
            simp only [unclean]
            constructor
            · rintro ⟨⟩
            · intro emits
              cases emits with
              | harden _ accepted' => exact absurd accepted' accepted
      | callgraph =>
          simp only [front]
          exact (Emits.callgraph front).some_eq_iff
      | dot =>
          simp only [front]
          exact (Emits.dot front).some_eq_iff
      | json =>
          simp only [front]
          exact (Emits.json front).some_eq_iff

end Plans

section Writing

variable {files after : Files} {path name : String} {text : Source}

/-- A file can be written at a path, and is known by a name then. -/
def Files.Writable (files : Files) (path name : String) : Prop :=
  ∃ directory component, destination files path = .ok (.entry directory component false) ∧
    component.utf8ByteSize ≤ longestComponent ∧ name = directory ++ component

/-- One file holds a text, and all others hold what they held. -/
structure Files.Written (files : Files) (name : String) (text : Source) (after : Files) : Prop where
  holds : after.lookup name = some (String.ofList text).toUTF8
  others : ∀ other, other ≠ name → after.lookup other = files.lookup other

theorem lookup_filter_ne {other : String} (ne : other ≠ name) (files : Files) :
    (files.filter fun f => f.1 ≠ name).lookup other = files.lookup other := by
  induction files with
  | nil => rfl
  | cons f files ih =>
      obtain ⟨key, bytes⟩ := f
      by_cases own : key = name
      · subst own
        rw [List.lookup_cons, beq_false_of_ne ne, List.filter_cons_of_neg (by simp)]
        exact ih
      · rw [List.filter_cons_of_pos (by simpa using own), List.lookup_cons, List.lookup_cons, ih]

/-- Writing to such a path succeeds, and changes no other file. -/
theorem write_writable (writable : files.Writable path name) (text : Source) :
    ∃ after, files.write path text = .ok after ∧ files.Written name text after := by
  obtain ⟨directory, component, leads, short, rfl⟩ := writable
  refine ⟨(directory ++ component, (String.ofList text).toUTF8) ::
    files.filter fun f => f.1 ≠ directory ++ component, ?_, ?_, ?_⟩
  · have fits : ¬ longestComponent < component.utf8ByteSize := Nat.not_lt.2 short
    simp only [Files.write, leads, bind, Except.bind, if_neg fits]
    rfl
  · simp
  · intro other ne
    rw [List.lookup_cons, beq_false_of_ne ne]
    exact lookup_filter_ne ne files

end Writing

section Runs

variable {files : Files} {path name output : String} {emit : Emit} {text : Source}

/-- Where the text goes has no part in the plan. -/
theorem plan_output (path : String) (emit : Emit) (check : Bool) (output : Option String) (source : Source) :
    plan ⟨path, emit, check, output⟩ source = plan ⟨path, emit, check, none⟩ source := by
  cases emit <;> rfl

theorem run_printing (emit : Emit) (check : Bool) (read : files.read path = .ok source) :
    (run ⟨path, emit, check, none⟩ files).exitCode = (plan ⟨path, emit, check, none⟩ source).exitCode ∧
      (run ⟨path, emit, check, none⟩ files).stderr = (plan ⟨path, emit, check, none⟩ source).reports ∧
      (run ⟨path, emit, check, none⟩ files).files = files := by
  simp only [run, read, carryOut]
  cases (plan ⟨path, emit, check, none⟩ source).text <;> exact ⟨rfl, rfl, rfl⟩

theorem run_writing (read : files.read path = .ok source) (writable : files.Writable output name) :
    (run ⟨path, emit, check, some output⟩ files).exitCode =
        (plan ⟨path, emit, check, none⟩ source).exitCode ∧
      (run ⟨path, emit, check, some output⟩ files).stderr =
        (plan ⟨path, emit, check, none⟩ source).reports ∧
      (∀ text, Emits source check emit text →
        files.Written name text (run ⟨path, emit, check, some output⟩ files).files) ∧
      ((¬ ∃ text, Emits source check emit text) →
        (run ⟨path, emit, check, some output⟩ files).files = files) := by
  have emits : ∀ text, (plan ⟨path, emit, check, none⟩ source).text = some text ↔
      Emits source check emit text := fun _ => plan_text
  simp only [run, read, carryOut, plan_output path emit check (some output)]
  cases put : (plan ⟨path, emit, check, none⟩ source).text with
  | none =>
      simp only [put] at emits
      refine ⟨rfl, rfl, ?_, fun _ => rfl⟩
      intro text emitted
      cases (emits text).2 emitted
  | some text =>
      simp only [put] at emits
      obtain ⟨after, written, holds⟩ := write_writable writable text
      simp only [written]
      refine ⟨trivial, trivial, ?_, ?_⟩
      · intro text' emitted
        cases (emits text').2 emitted
        exact holds
      · intro nothing
        exact absurd ⟨text, (emits text).1 rfl⟩ nothing

/-- The verdict on a file. Whatever is to be printed, the exit code tells whether the file is
accepted, the reports are the same, and no file is written. A review fails where the file cannot be
read, and rewrites the file where that is asked for and nothing worse than a warning has been
reported. If the text goes to a file, the verdict is the same; that file then holds the text, if
there is one, and all files are as they were if there is none. -/
theorem stages_agree (read : files.read path = .ok source) (check : Bool) :
    (∀ emit, (source.Accepted check → (run ⟨path, emit, check, none⟩ files).exitCode = 0) ∧
      (¬ source.Accepted check → (run ⟨path, emit, check, none⟩ files).exitCode = 1) ∧
      (run ⟨path, emit, check, none⟩ files).stderr = (run ⟨path, .check, check, none⟩ files).stderr ∧
      (run ⟨path, emit, check, none⟩ files).files = files) ∧
    (∀ harden ds, source.review ⟨check, harden⟩ = .error ds ↔ source.front = .error ds) ∧
    (∀ harden r, source.review ⟨check, harden⟩ = .ok r →
      (r.accepted = true ↔ source.Accepted check) ∧
      (r.hardened.isSome = true ↔ harden = true ∧ ∀ d ∈ r.diagnostics, d.level ≠ .error) ∧
      r.provenance.outputHash = r.hardened.map fun h => Provenance.hash h.text) ∧
    ∀ emit output name, files.Writable output name →
      (run ⟨path, emit, check, some output⟩ files).exitCode =
        (run ⟨path, emit, check, none⟩ files).exitCode ∧
      (run ⟨path, emit, check, some output⟩ files).stderr =
        (run ⟨path, emit, check, none⟩ files).stderr ∧
      (∀ text, Emits source check emit text →
        files.Written name text (run ⟨path, emit, check, some output⟩ files).files) ∧
      ((¬ ∃ text, Emits source check emit text) →
        (run ⟨path, emit, check, some output⟩ files).files = files) := by
  refine ⟨?_, ?_, ?_, ?_⟩
  · intro emit
    obtain ⟨exitCode, stderr, unchanged⟩ := run_printing emit check read
    obtain ⟨-, stderr', -⟩ := run_printing .check check read
    rw [exitCode, stderr, stderr']
    cases front : source.front with
    | error ds =>
        rw [plan_error front, plan_error front]
        exact ⟨fun accepted => absurd accepted (source.not_accepted front), fun _ => rfl, rfl, unchanged⟩
    | ok u =>
        obtain ⟨reports, code⟩ := plan_ok ⟨path, emit, check, none⟩ front
        obtain ⟨reports', -⟩ := plan_ok ⟨path, .check, check, none⟩ front
        rw [reports, reports', code, source.accepted_iff front]
        refine ⟨?_, ?_, rfl, unchanged⟩
        · intro clean
          simp [verdictCode, clean]
        · intro unclean
          simp [verdictCode, unclean]
  · intro harden ds
    cases front : source.front with
    | error ds' => simp [source.review_error front]
    | ok u => simp [source.review_ok front]
  · intro harden r reviewed
    cases front : source.front with
    | error ds => cases (source.review_error front).symm.trans reviewed
    | ok u =>
        rw [source.review_ok front] at reviewed
        obtain rfl := Except.ok.inj reviewed
        refine ⟨(source.accepted_iff front).symm, ?_, by simp [Provenance.of]⟩
        simp only [← Graph.isClean_iff]
        cases harden <;> cases (u.callGraph check).isClean <;> simp
  · intro emit output name writable
    obtain ⟨exitCode, stderr, -⟩ := run_printing emit check read
    rw [exitCode, stderr]
    exact run_writing read writable

/-- A directory with one file, in which a function calls itself. -/
def recursiveFiles : Files := [("s", (String.ofList Graph.selfCalling).toUTF8)]

theorem stages_agree_recursive : ¬ Source.Accepted Graph.selfCalling true ∧
    (∀ emit, (run ⟨"s", emit, true, none⟩ recursiveFiles).exitCode = 1) ∧
    (run ⟨"s", .harden, true, some "o"⟩ recursiveFiles).files = recursiveFiles ∧
    ((run ⟨"s", .json, true, some "o"⟩ recursiveFiles).files.lookup "o").isSome = true := by
  have read : recursiveFiles.read "s" = .ok Graph.selfCalling := by rfl
  have leads : destination recursiveFiles "o" = .ok (.entry working "o" false) := by rfl
  have writable : recursiveFiles.Writable "o" "o" := ⟨working, "o", leads, by decide +kernel, by decide +kernel⟩
  have unclean : (Source.front Graph.selfCalling).toOption.any (fun u => !(u.callGraph true).isClean) = true := by
    decide +kernel
  obtain ⟨u, front, rejected⟩ := exists_of_any unclean
  have refused : ¬ Source.Accepted Graph.selfCalling true := by
    rw [Source.accepted_iff front]
    simpa using rejected
  obtain ⟨verdict, -, -, writes⟩ := stages_agree read true
  refine ⟨refused, fun emit => (verdict emit).2.1 refused, ?_, ?_⟩
  · apply (writes .harden "o" "o" writable).2.2.2
    rintro ⟨text, emits⟩
    cases emits with
    | harden _ accepted => exact refused accepted
  · rw [((writes .json "o" "o" writable).2.2.1 _ (.json front)).holds]
    rfl

end Runs
end CommandLine
end SafeSubset
