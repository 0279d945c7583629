import SafeSubset.Proofs.CommandLine.Stages
import SafeSubset.Proofs.Grammar.Failures

/-! Why a file is rejected, and where. Its faults are reported first, each where it
stands, and then at most one failure of its syntax, at a token or at the end. -/
namespace SafeSubset

open Token (Cutout scan)

variable {source : Source}

/-- The tokens of the text are those of some file. -/
def Source.Readable (source : Source) : Prop :=
  ∃ ns, Grammar.Phrase.split source Grammar.Phrase.nodes (scan source).lexemes =
    some ⟨ns, (scan source).lexemes, []⟩

/-- A text has a unit where its tokens are those of a file, whatever its faults. -/
theorem Source.readable_iff (source : Source) :
    source.Readable ↔ ∃ u, source.parse.unit = .ok u := by
  constructor
  · rintro ⟨ns, split⟩
    have parsed := (Grammar.Phrase.readAll_iff (by rfl)).2 split
    refine ⟨⟨numberNodes 0 ns, ⟨0, Source.byteLength source⟩⟩, ?_⟩
    simp only [parse, parsed, Except.map]
  · rintro ⟨u, read⟩
    obtain ⟨ns, -, split⟩ := split_of_parse read
    exact ⟨ns, split⟩

/-- A text without a unit fails at a token or at its end. -/
theorem Source.failure_at {f : Grammar.Failure} (read : source.parse.unit = .error f) :
    f.At source (scan source).lexemes := by
  simp only [parse] at read
  cases parsed : Grammar.Phrase.nodes.readAll (.start source (scan source).lexemes) with
  | error g =>
      simp only [parsed, Except.map, Except.error.injEq] at read
      exact read ▸ Grammar.Phrase.readAll_at parsed
  | ok ns => simp [parsed, Except.map] at read

/-- The places of the reports lie in the text, between its characters. -/
theorem cutout_of_fault {f : Token.Fault} (member : f ∈ (scan source).faults) :
    f.span.start ≤ f.span.stop ∧ f.span.stop ≤ Source.byteLength source ∧
      ∃ chars after, Cutout source f.span chars after := by
  have solid := (Token.sublist_solidSpans 0 (Token.pieces source)).2.subset
    (List.mem_map_of_mem member)
  obtain ⟨some, le, cutout⟩ := Token.cutout_of_solid solid
  exact ⟨Nat.le_of_lt some, le, cutout⟩

theorem cutout_of_failure {f : Grammar.Failure} (lies : f.At source (scan source).lexemes) :
    f.span.start ≤ f.span.stop ∧ f.span.stop ≤ Source.byteLength source ∧
      ∃ chars after, Cutout source f.span chars after := by
  rcases lies with token | end_
  · have solid := (Token.sublist_solidSpans 0 (Token.pieces source)).1.subset token
    obtain ⟨some, le, cutout⟩ := Token.cutout_of_solid solid
    exact ⟨Nat.le_of_lt some, le, cutout⟩
  · rw [end_]
    exact ⟨Nat.le_refl _, Nat.le_refl _, [], [], source, by simp, rfl, rfl⟩

/-- A text without a unit is reported with its faults and the failure behind them. -/
theorem Source.front_of_unread {f : Grammar.Failure} (read : source.parse.unit = .error f) :
    source.front = .error (((scan source).faults.map fun f => Diagnostic.error "E0001" f.span f.message) ++
      [Diagnostic.error "E0002" f.span f.message]) := by
  simp only [Source.front, read, Parsed.diagnostics]
  rfl

/-- A text with a unit is reported with its faults alone, if it has any. -/
theorem Source.front_of_faults {v : SourceUnit Unit} (read : source.parse.unit = .ok v)
    (some : (scan source).faults ≠ []) :
    source.front = .error ((scan source).faults.map fun f => Diagnostic.error "E0001" f.span f.message) := by
  have scanned : source.parse.faults = (scan source).faults := rfl
  cases found : (scan source).faults with
  | nil => exact absurd found some
  | cons f fs =>
      simp only [Source.front, read, scanned, found, Parsed.diagnostics, List.append_nil]
      rfl

theorem Source.front_of_clean {v : SourceUnit Unit} (read : source.parse.unit = .ok v)
    (none : (scan source).faults = []) : source.front = .ok v.annotate := by
  have scanned : source.parse.faults = [] := none
  simp only [Source.front, read, scanned]

/-- A file is accepted where its text has no fault and its tokens are those of a
file. One that is rejected is reported with its faults in their order and, where
its tokens are not those of a file, with one failure behind them; the command
counts these reports. -/
theorem Source.front_classified (source : Source) :
    let found := scan source
    let faults := found.faults.map fun f => Diagnostic.error "E0001" f.span f.message
    ((∃ u, source.front = .ok u) ↔ found.faults = [] ∧ source.Readable) ∧
    (source.Readable ↔ ∃ v, source.parse.unit = .ok v) ∧
    found.faults.Pairwise (fun a b => a.span.stop ≤ b.span.start) ∧
    (∀ u, source.front = .ok u → ∃ v, source.parse.unit = .ok v ∧ u = v.annotate) ∧
    ∀ ds, source.front = .error ds →
      (source.Readable ∧ found.faults ≠ [] ∧ ds = faults ∨
        ¬ source.Readable ∧ ∃ span message, ds = faults ++ [Diagnostic.error "E0002" span message] ∧
          (span ∈ found.lexemes.map (·.span) ∨ span = .point (Source.byteLength source))) ∧
      (∀ d ∈ ds, d.span.start ≤ d.span.stop ∧ d.span.stop ≤ Source.byteLength source ∧
        ∃ chars after, Cutout source d.span chars after) ∧
      ∀ request, CommandLine.plan request source =
        ⟨CommandLine.reportText request.path source ds ++
          CommandLine.errorLine ("source has " ++ toString ds.length ++ " syntax error(s)"), none, 1⟩ := by
  intro found faults
  have reported : ∀ d ∈ faults, d.span.start ≤ d.span.stop ∧
      d.span.stop ≤ Source.byteLength source ∧ ∃ chars after, Cutout source d.span chars after := by
    intro d member
    obtain ⟨f, fault, rfl⟩ := List.mem_map.1 member
    exact cutout_of_fault fault
  have rejected : ∀ ds, source.front = .error ds → ∀ request, CommandLine.plan request source =
      ⟨CommandLine.reportText request.path source ds ++
        CommandLine.errorLine ("source has " ++ toString ds.length ++ " syntax error(s)"), none, 1⟩ :=
    fun ds front request => CommandLine.plan_error front
  have typed : ∀ u, source.front = .ok u → ∃ v, source.parse.unit = .ok v ∧ u = v.annotate := by
    intro u front
    obtain ⟨v, read, -, rfl⟩ := front_annotate front
    exact ⟨v, read, rfl⟩
  refine ⟨?_, source.readable_iff, (Token.scan_pairwise source).2, typed, fun ds front => ?_⟩
  · rw [source.readable_iff]
    constructor
    · rintro ⟨u, front⟩
      obtain ⟨v, read, clean, -⟩ := front_annotate front
      exact ⟨clean, v, read⟩
    · rintro ⟨clean, v, read⟩
      exact ⟨_, front_of_clean read clean⟩
  cases read : source.parse.unit with
  | error f =>
      have unread : ¬ source.Readable := by simp [source.readable_iff, read]
      obtain rfl := Except.error.inj ((front_of_unread read).symm.trans front)
      refine ⟨.inr ⟨unread, f.span, f.message, rfl, failure_at read⟩, fun d member => ?_,
        rejected _ front⟩
      rcases List.mem_append.1 member with fault | failure
      · exact reported d fault
      · cases List.mem_singleton.1 failure
        exact cutout_of_failure (failure_at read)
  | ok v =>
      have some : found.faults ≠ [] := by
        intro clean
        cases (front_of_clean read clean).symm.trans front
      obtain rfl := Except.error.inj ((front_of_faults read some).symm.trans front)
      exact ⟨.inl ⟨source.readable_iff.2 ⟨v, read⟩, some, rfl⟩, reported, rejected _ front⟩

end SafeSubset
