import SafeSubset.Proofs.Checked.Report
import SafeSubset.Proofs.Checked.Tokens
import SafeSubset.Proofs.Grammar.Definitions
import SafeSubset.Proofs.Token.Twins

/-! Rewriting a file again. What stands before the first contract that changes is cut
into the same tokens in the rewritten text and read as the same number of definitions,
so the library behind it is read as one of its own, and the text is left alone. -/
namespace SafeSubset.Checked

open Grammar (Symbol kindsOf)
open Grammar.Phrase (Tops definitionMeaning)
open Token (Kind Piece Sealed Spaced words width extent pieces)

variable {source text : Source} {u : SourceUnit Ty} {c : Contract Ty} {cs : List (Contract Ty)}
  {ts before : List Spaced} {t : Spaced}

section Words

theorem words_piecesBefore (before : List Spaced) (t : Spaced) :
    (piecesBefore before t).filterMap Piece.word? = before.map Spaced.word := by
  have none : ∀ gap : List Source, (gap.map (⟨.trivia, ·⟩ : Source → Piece)).filterMap Piece.word? = [] := by
    intro gap
    simp [Piece.word?]
  rw [piecesBefore, List.filterMap_append, none, List.append_nil]
  induction before with
  | nil => rfl
  | cons b before ih =>
      rw [List.flatMap_cons, List.filterMap_append, ih, Spaced.pieces, List.filterMap_append, none]
      rfl

theorem front_lines {s : String} {x : Source} (h : x <+: s.toList) (t : String) :
    x <+: (s ++ t).toList := by
  rw [String.toList_append]
  exact h.trans (List.prefix_append _ _)

/-- The library begins with its keyword and its name. -/
theorem words_library : ∃ rest, words librarySource =
    (.keyword .library, "library") :: (.identifier, "SafeMath") :: rest := by
  have front : "\n\n// SafeMath library from openzeppelin.\n".toList ++ "library SafeMath \x7b\n".toList
      <+: librarySource := by
    iterate 21 refine front_lines ?_ _
    rewrite [String.toList_append]
    exact List.prefix_refl _
  have comment : Sealed "\n\n// SafeMath library from openzeppelin.\n".toList :=
    Token.sealed_line ⟨_, rfl, by decide +kernel⟩
  have opening : Sealed "library SafeMath \x7b\n".toList := Token.sealed_line ⟨_, rfl, by decide +kernel⟩
  have none : words "\n\n// SafeMath library from openzeppelin.\n".toList = [] := by decide +kernel
  have two : words "library SafeMath \x7b\n".toList =
      [(.keyword .library, "library"), (.identifier, "SafeMath"), (.mark .openBrace, "\x7b")] := by
    decide +kernel
  obtain ⟨z, lines⟩ := front
  refine ⟨(.mark .openBrace, "\x7b") :: words z, ?_⟩
  rw [← lines, List.append_assoc, comment.words, opening.words, none, two]
  rfl

end Words

section Headers

/-- What neither numbers nor types change about a contract. -/
def header {α : Type} (c : Contract α) : ContractKind × Ident × Span := (c.kind, c.name, c.span)

theorem headers_numberNodes (id : Nat) (ns : List (Node Unit)) :
    ((numberNodes id ns).flatMap Node.definition).map header = (ns.flatMap Node.definition).map header := by
  induction ns generalizing id with
  | nil => rfl
  | cons n ns ih =>
      cases n with
      | pragma s | inclusion s => exact ih id
      | contract c => exact congrArg (_ :: ·) (ih _)

theorem headers_annotate (v : SourceUnit Unit) :
    v.annotate.contracts.map header = v.contracts.map header := by
  rw [Typing.contracts_annotate, List.map_map]
  rfl

/-- The contracts of an accepted file are those of the definitions it is read as. -/
theorem definitions_of_front (accepted : source.front = .ok u) :
    ∃ (ts : List Spaced) (tail : List Source) (ns : List (Node Unit)),
      pieces source = ts.flatMap Spaced.pieces ++ tail.map (⟨.trivia, ·⟩) ∧
      words source = ts.map Spaced.word ∧
      (definitionMeaning source).Repeats 0 ns ts [] ∧
      u.contracts.map header = (ns.flatMap Node.definition).map header := by
  obtain ⟨v, read, faults, rfl⟩ := Source.front_annotate accepted
  obtain ⟨ts, tail, cut, found, holds⟩ := Token.scan_faultless faults
  obtain ⟨ns, rfl, split⟩ := Source.split_of_parse read
  rw [found] at split
  have reading := Grammar.Phrase.known_of_split Grammar.Phrase.balanced_rules
    (r := Grammar.Phrase.nodes) (by rfl) holds split
  refine ⟨ts, tail, ns, cut, Token.words_of_lexemes found, reading, ?_⟩
  rw [headers_annotate, SourceUnit.contracts_eq, headers_numberNodes]

end Headers

/-- The first edit of a file puts in the library before a contract. -/
theorem filePatches_first (source : Source) (some : ∃ c ∈ cs, changes c = true) :
    ∃ c ∈ cs, ∃ es, filePatches source true cs = (.point c.span.start, librarySource) :: es := by
  induction cs with
  | nil => simp at some
  | cons d cs ih =>
      rw [filePatches_cons]
      cases changed : changes d with
      | true => exact ⟨d, List.mem_cons_self, _, rfl⟩
      | false =>
          obtain ⟨c, member, es, same⟩ := ih (by simpa [changed] using some)
          exact ⟨c, List.mem_cons_of_mem d member, es, by simpa using same⟩

theorem split_before {us : List Spaced} {tail : List Source}
    (cut : pieces source = (before ++ t :: us).flatMap Spaced.pieces ++ tail.map (⟨.trivia, ·⟩)) :
    ∃ x, source = (piecesBefore before t).flatMap Piece.chars ++ (t.chars ++ x) := by
  have split : pieces source = piecesBefore before t ++
      (t.piece :: (us.flatMap Spaced.pieces ++ tail.map (⟨.trivia, ·⟩))) := by
    simp [cut, piecesBefore, Spaced.pieces, Spaced.piece]
  have whole := Token.flatMap_chars_pieces source
  rw [split, List.flatMap_append] at whole
  exact ⟨_, whole.symm⟩

/-- The source up to a token is the text of what stands before the token. -/
theorem slice_before {us : List Spaced} {tail : List Source}
    (cut : pieces source = (before ++ t :: us).flatMap Spaced.pieces ++ tail.map (⟨.trivia, ·⟩)) :
    Source.slice source ⟨0, Source.byteLength ((piecesBefore before t).flatMap Piece.chars)⟩ =
      (piecesBefore before t).flatMap Piece.chars := by
  obtain ⟨x, whole⟩ := split_before cut
  generalize (piecesBefore before t).flatMap Piece.chars = front at whole ⊢
  rw [whole]
  exact Source.slice_front front _

/-- Where a contract changes, the library is put in before some contract, behind
what stands there in the source. -/
theorem text_of_changes (accepted : source.front = .ok u)
    (undefined : (u.contracts.any fun c => isLibraryName c.name.text) = false)
    (changed : ∃ c ∈ u.contracts, changes c = true) :
    ∃ c ∈ u.contracts, ∃ z, (harden source u).text =
      Source.slice source ⟨0, c.span.start⟩ ++ (librarySource ++ z) := by
  obtain ⟨c, inside, es, first⟩ := filePatches_first source changed
  have put : ∀ text, Edits.substituted source (Source.byteLength source) 0
      ((.point c.span.start, text) :: es) = Source.slice source ⟨0, c.span.start⟩ ++ text ++
        Edits.substituted source (Source.byteLength source) c.span.start es := fun _ => rfl
  refine ⟨c, inside, Edits.substituted source (Source.byteLength source) c.span.start es, ?_⟩
  rw [harden_edits accepted, fileEdits, if_neg (by simp [undefined]), first, put, List.append_assoc]

/-- Before a contract of an accepted file there are the tokens of definitions. -/
theorem tops_before_contract (accepted : source.front = .ok u) (inside : c ∈ u.contracts) :
    ∃ (before : List Spaced) (t : Spaced) (us : List Spaced) (tail : List Source),
      pieces source = (before ++ t :: us).flatMap Spaced.pieces ++ tail.map (⟨.trivia, ·⟩) ∧
      Tops (kindsOf before) ∧
      c.span.start = Source.byteLength ((piecesBefore before t).flatMap Piece.chars) := by
  obtain ⟨ts, tail, ns, cut, -, reading, headers⟩ := definitions_of_front accepted
  obtain ⟨d, definition, same⟩ : ∃ d ∈ ns.flatMap Node.definition, header d = header c := by
    rw [← List.mem_map, ← headers]
    exact List.mem_map_of_mem inside
  obtain ⟨n, node, own⟩ := List.mem_flatMap.1 definition
  obtain rfl : n = .contract d := by
    cases n with
    | contract d' => rw [List.mem_singleton.1 own]
    | pragma s | inclusion s => cases own
  obtain ⟨before, us, behind, rfl, tops, inner⟩ := Grammar.Phrase.tops_before reading node
  obtain ⟨more, span⟩ := Grammar.Phrase.span_of_reads inner
  obtain ⟨t, us, rfl⟩ := List.exists_cons_of_ne_nil more
  have placed : d.span = c.span := congrArg (fun h => h.2.2) same
  refine ⟨before, t, us ++ behind, tail, cut, tops, ?_⟩
  rw [start_piecesBefore before us t, ← placed, span, Nat.zero_add]

/-- The tokens of the rewritten file begin with those of some of its definitions, and
behind them there is the library. -/
theorem harden_begins (accepted : source.front = .ok u)
    (some : 0 < (harden source u).report.operations) :
    ∃ before rest, Tops (kindsOf before) ∧ words (harden source u).text =
      before.map Spaced.word ++ (.keyword .library, "library") :: (.identifier, "SafeMath") :: rest := by
  obtain ⟨undefined, changed⟩ := (operations_pos_iff source u).1 some
  obtain ⟨c, inside, z, text⟩ := text_of_changes accepted undefined changed
  obtain ⟨before, t, us, tail, cut, tops, start⟩ := tops_before_contract accepted inside
  obtain ⟨x, cuts, -, -⟩ := cuts_here cut rfl
  have divides : Token.Divides (piecesBefore before t) (librarySource ++ z) := by
    obtain ⟨lines, newline⟩ := library_newline
    rw [newline]
    exact Token.divides_newline (sound_piecesBefore before t) cuts (lines ++ z)
  obtain ⟨rest, library⟩ := words_library
  refine ⟨before, rest ++ words z, tops, ?_⟩
  rw [text, start, slice_before cut, divides.words, words_piecesBefore, sealed_library.words, library]
  rfl

/-- The library that was put into a file is one of its definitions. -/
theorem library_again {v : SourceUnit Ty} (accepted : source.front = .ok u)
    (some : 0 < (harden source u).report.operations) (again : (harden source u).text.front = .ok v) :
    ∃ c ∈ v.contracts, c.kind = .library ∧ c.name.text = libraryName := by
  obtain ⟨before, rest, tops, begins⟩ := harden_begins accepted some
  obtain ⟨ts, -, ns, -, found, reading, headers⟩ := definitions_of_front again
  rw [begins] at found
  have kinds : kindsOf ts = kindsOf before ++
      (.keyword .library :: .identifier :: rest.map Prod.fst) := by
    have first := congrArg (List.map Prod.fst) found
    simpa [Spaced.word, Function.comp_def] using first.symm
  obtain ⟨before', behind, ns', rfl, same, inside, others⟩ :=
    Grammar.Phrase.repeats_behind tops reading kinds
  rw [List.map_append] at found
  have length : (before.map Spaced.word).length = (before'.map Spaced.word).length := by
    have length := congrArg List.length same
    simpa using length.symm
  obtain ⟨-, library⟩ := List.append_inj found length
  obtain ⟨t, behind, rfl, first, library⟩ := List.map_eq_cons_iff.1 library.symm
  obtain ⟨t', behind, rfl, second, -⟩ := List.map_eq_cons_iff.1 library
  cases ns' with
  | nil => cases others.1
  | cons n ns' =>
      obtain ⟨us, vs, split, own, -⟩ := others
      have front : us ++ (vs ++ []) = t :: t' :: behind := by rw [List.append_nil, ← split]
      obtain ⟨c, rfl, kind, name⟩ :=
        Grammar.Phrase.library_of_reads own front (congrArg Prod.fst first)
      have member : header c ∈ v.contracts.map header := by
        rw [headers]
        exact List.mem_map_of_mem (List.mem_flatMap.2 ⟨_, inside _ List.mem_cons_self, by simp [Node.definition]⟩)
      obtain ⟨d, definition, same⟩ := List.mem_map.1 member
      refine ⟨d, definition, (congrArg Prod.fst same).trans kind, ?_⟩
      have named : d.name = c.name := congrArg (fun h => h.2.1) same
      rw [named, name]
      exact congrArg Prod.snd second

/-- Where nothing was replaced the text is that of the file. -/
theorem harden_unchanged (accepted : source.front = .ok u)
    (none : (harden source u).report.operations = 0) : (harden source u).text = source := by
  have edits : fileEdits source u = [] := by
    unfold fileEdits
    split
    · rfl
    · next undefined =>
      have still : ∀ c ∈ u.contracts, changes c = false := by
        intro c member
        rw [← Bool.not_eq_true]
        intro changed
        have some := (operations_pos_iff source u).2 ⟨by simpa using undefined, c, member, changed⟩
        omega
      generalize u.contracts = cs at still
      induction cs with
      | nil => rfl
      | cons c cs ih =>
          rw [filePatches_cons, if_neg (by simp [still c List.mem_cons_self])]
          exact ih fun d member => still d (List.mem_cons_of_mem c member)
  rw [harden_edits accepted, edits]
  exact Source.slice_all source

/-- Rewriting a rewritten file leaves its text as it is and replaces nothing. If an
operation was replaced the first time, the library that was put in is found as a
definition of the file the second time. -/
theorem harden_harden {v : SourceUnit Ty} (accepted : source.front = .ok u)
    (again : (harden source u).text.front = .ok v) :
    (harden (harden source u).text v).text = (harden source u).text ∧
      (harden (harden source u).text v).report.operations = 0 ∧
      (0 < (harden source u).report.operations →
        (harden (harden source u).text v).report.libraryDefined = true ∧
        ∃ c ∈ v.contracts, c.kind = .library ∧ c.name.text = libraryName) := by
  by_cases none : (harden source u).report.operations = 0
  · have same := harden_unchanged accepted none
    rw [same] at again ⊢
    obtain rfl := Except.ok.inj (accepted.symm.trans again)
    exact ⟨same, none, fun some => absurd none (Nat.ne_of_gt some)⟩
  · have some := Nat.pos_of_ne_zero none
    obtain ⟨c, member, kind, name⟩ := library_again accepted some again
    have defined : (v.contracts.any fun c => isLibraryName c.name.text) = true :=
      List.any_eq_true.2 ⟨c, member, by rw [name]; rfl⟩
    have left : harden (harden source u).text v = ⟨(harden source u).text, ⟨[], false, true⟩⟩ := by
      rw [harden, if_pos defined]
    rw [left]
    exact ⟨rfl, rfl, fun _ => ⟨rfl, c, member, kind, name⟩⟩

/-- A file in which the second contract changes. -/
def secondSource : Source :=
  "pragma solidity ^0.4.24; contract A \x7b\x7d contract B \x7b uint a; uint b = a + a; \x7d".toList

theorem harden_harden_second : ∃ u v, secondSource.front = .ok u ∧
    (harden secondSource u).text.front = .ok v ∧ 0 < (harden secondSource u).report.operations ∧
    (harden (harden secondSource u).text v).text = (harden secondSource u).text ∧
    (harden (harden secondSource u).text v).report.operations = 0 ∧
    (harden (harden secondSource u).text v).report.libraryDefined = true := by
  have accepted : secondSource.front.toOption.any (fun u =>
      decide (0 < (harden secondSource u).report.operations) &&
        (harden secondSource u).text.front.toOption.isSome) = true := by
    -- Lines are joined as lists of characters before anything is computed with them.
    delta harden rewriteContract librarySource
    simp only [String.toList_append]
    decide +kernel
  obtain ⟨u, found, facts⟩ := exists_of_any accepted
  simp only [Bool.and_eq_true, decide_eq_true_eq] at facts
  cases again : (harden secondSource u).text.front with
  | error ds => simp [again, Except.toOption] at facts
  | ok v =>
      obtain ⟨same, none, defined⟩ := harden_harden found again
      exact ⟨u, v, found, again, facts.1, same, none, (defined facts.1).1⟩

end SafeSubset.Checked
