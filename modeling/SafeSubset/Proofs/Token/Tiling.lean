import SafeSubset.Proofs.Token.Faults

/-! What the tokens and the faults of a text leave out. Their spans follow one
another from its front to its end, and between them there are white space and
whole comments alone. A token is the longest text that is spelled where it stands,
and a fault stands where nothing is. -/
namespace SafeSubset.Token

/-- White space and comments in front of `after`. -/
inductive Trivia (after : Source) : Source → Prop where
  | done : Trivia after []
  | space {c : Char} {rest : Source} (white : c ∈ [' ', '\t', '\r', '\n', '\x0c'])
      (tail : Trivia after rest) : Trivia after (c :: rest)
  /-- A comment that goes on up to the end of its line. -/
  | line {body rest : Source} (inside : '\n' ∉ body)
      (ends : ∀ c ∈ (rest ++ after).head?, c = '\n') (tail : Trivia after rest) :
      Trivia after ('/' :: '/' :: (body ++ rest))
  /-- A comment that goes on up to the first `*/` behind its opening. -/
  | block {body rest : Source} (inside : ¬ ['*', '/'] <:+: body ++ ['*'])
      (tail : Trivia after rest) : Trivia after ('/' :: '*' :: (body ++ '*' :: '/' :: rest))

/-- From an offset on the text is trivia but for the spans, none of which is
empty. -/
inductive Tiles : Nat → Source → List Span → Prop where
  | done {offset : Nat} {gap : Source} (trivia : Trivia [] gap) : Tiles offset gap []
  | span {offset start stop : Nat} {gap chars rest : Source} {ss : List Span}
      (trivia : Trivia (chars ++ rest) gap) (some : chars ≠ [])
      (starts : start = offset + Source.byteLength gap)
      (stops : stop = start + Source.byteLength chars) (tail : Tiles stop rest ss) :
      Tiles offset (gap ++ (chars ++ rest)) (⟨start, stop⟩ :: ss)

/-- The span is that of a text in the source. -/
def Cutout (source : Source) (span : Span) (chars after : Source) : Prop :=
  ∃ before, source = before ++ (chars ++ after) ∧ span.start = Source.byteLength before ∧
    span.stop = span.start + Source.byteLength chars

variable {source gap chars cs x after : Source} {offset : Nat} {ss us : List Span} {s : Span}

section Gaps

theorem Trivia.spaces (white : ∀ c ∈ cs, isSpace c) (tail : Trivia after x) :
    Trivia after (cs ++ x) := by
  induction cs with
  | nil => exact tail
  | cons c cs ih =>
      refine .space ?_ (ih fun d member => white d (List.mem_cons_of_mem _ member))
      simpa [isSpace, or_assoc] using white c List.mem_cons_self

/-- The end of a comment is the first one there is. -/
theorem exists_body {n : Nat} (h : commentLength? cs = some n) :
    ∃ body rest, cs = body ++ '*' :: '/' :: rest ∧ n = body.length + 2 ∧
      ¬ ['*', '/'] <:+: body ++ ['*'] := by
  induction cs generalizing n with
  | nil => cases h
  | cons c cs ih =>
      rw [commentLength_cons] at h
      split at h
      · next closes =>
        obtain ⟨rfl, head⟩ := closes
        obtain ⟨cs, rfl⟩ := List.head?_eq_some_iff.1 head
        cases h
        exact ⟨[], cs, rfl, rfl, by decide⟩
      · next other =>
        obtain ⟨m, inner, rfl⟩ := Option.map_eq_some_iff.1 h
        obtain ⟨body, rest, rfl, rfl, inside⟩ := ih inner
        refine ⟨c :: body, rest, rfl, rfl, fun found => ?_⟩
        rcases List.infix_cons_iff.1 found with here | later
        · obtain ⟨rfl, next⟩ := List.cons_prefix_cons.1 here
          refine other ⟨rfl, ?_⟩
          cases body with
          | nil => simp at next
          | cons d body =>
              obtain ⟨rfl, -⟩ := List.cons_prefix_cons.1 next
              rfl
        · exact inside later

/-- A piece of trivia goes before the trivia behind it. -/
theorem trivia_of_cut {p : Piece} (kind : p.kind = .trivia) (cut : p.Cut (gap ++ after))
    (tail : Trivia after gap) : Trivia after (p.chars ++ gap) := by
  obtain ⟨c, cs, chars, found⟩ := cut
  rw [kind] at found
  rw [chars]
  have starts := start_of_trivia found
  rw [first_eq] at found
  rcases starts with starts | starts | starts
  · rw [starts] at found
    have run := runLength_eq_iff.1 (congrArg Prod.snd found)
    exact Trivia.spaces (List.forall_mem_cons.2 ⟨start_space.1 starts, run.1⟩) tail
  · obtain rfl : c = '/' := shows_of_start starts
    have head := start_comment.1 starts
    rw [starts] at found
    obtain ⟨inside, ends⟩ := runLength_eq_iff.1 (congrArg Prod.snd found)
    simp only [decide_eq_true_eq, decide_eq_false_iff_not, not_not] at inside ends
    cases cs with
    | nil => cases ends '/' head
    | cons d body =>
        obtain rfl : d = '/' := Option.some.inj head
        exact .line (fun newline => inside _ (List.mem_cons_of_mem _ newline) rfl) ends tail
  · obtain rfl : c = '/' := shows_of_start starts
    have head := start_block starts
    rw [starts] at found
    simp only [blockAt] at found
    split at found
    · next n length =>
      have size : n + 1 = cs.length := congrArg Prod.snd found
      cases cs with
      | nil => cases size
      | cons d ds =>
          obtain rfl : d = '*' := Option.some.inj head
          obtain ⟨body, rest, same, rfl, inside⟩ := exists_body length
          have all : ds ++ (gap ++ after) = (body ++ ['*', '/']) ++ rest := by
            simpa using same
          obtain ⟨rfl, -⟩ := List.append_inj all (by simpa using size.symm)
          simpa using Trivia.block inside tail
    · cases found

end Gaps

section Order

theorem Tiles.bounds (h : Tiles offset cs ss) (member : s ∈ ss) :
    offset ≤ s.start ∧ s.start < s.stop ∧ s.stop ≤ offset + Source.byteLength cs := by
  induction h with
  | done => cases member
  | span trivia some starts stops tail ih =>
      have := Source.byteLength_pos some
      simp only [Source.byteLength_append]
      rcases List.mem_cons.1 member with rfl | member
      · simp only
        omega
      · have := ih member
        omega

theorem Tiles.pairwise (h : Tiles offset cs ss) : ss.Pairwise fun a b => a.stop ≤ b.start := by
  induction h with
  | done => exact .nil
  | span trivia some starts stops tail ih =>
      exact .cons (fun b member => (tail.bounds member).1) ih

theorem before_of_le {a b : Span} (some : a.start < a.stop) (le : a.stop ≤ b.start) : a.Before b :=
  .inl (Nat.lt_of_lt_of_le some le)

/-- Spans that stand in their order are what sorting them gives, in whatever order
they are given. -/
theorem sort_eq (same : us.Perm ss) (ordered : ss.Pairwise Span.Before) : Span.sort us = ss := by
  refine List.Perm.eq_of_pairwise ?_
    (List.pairwise_mergeSort ?_ ?_ us) ?_ ((List.mergeSort_perm us _).trans same)
  · intro a b _ _ ab ba
    by_contra ne
    simp only [Bool.not_eq_true', decide_eq_false_iff_not] at ab ba
    exact ab (Span.Before.total ne ba)
  · intro a b d ab bd
    simp only [Bool.not_eq_true', decide_eq_false_iff_not] at ab bd ⊢
    intro da
    by_cases eq : a = b
    · exact bd (eq ▸ da)
    · exact bd (da.trans (Span.Before.total (Ne.symm eq) ab))
  · intro a b
    by_cases ab : a.Before b
    · have : ¬ b.Before a := fun ba => Span.Before.irrefl a (ab.trans ba)
      simp [this]
    · simp [ab]
  · refine ordered.imp fun {a b} ab => ?_
    have : ¬ b.Before a := fun ba => Span.Before.irrefl a (ab.trans ba)
    simp [this]

end Order

section Placed

variable {ps : List Piece}

/-- Whether a piece is a token or a fault. -/
def Piece.solid (p : Piece) : Bool := p.kind ≠ .trivia

/-- The spans of the pieces that are no trivia. -/
def solidSpans (offset : Nat) (ps : List Piece) : List Span :=
  ((placed offset ps).filter fun p => p.1.solid).map Prod.snd

theorem tiles_solidSpans (some : ∀ p ∈ ps, p.chars ≠ []) (cuts : Cuts ps []) :
    Tiles offset (ps.flatMap Piece.chars) (solidSpans offset ps) := by
  induction ps generalizing offset with
  | nil => exact .done .done
  | cons p ps ih =>
      obtain ⟨own, rest⟩ := cuts
      rw [List.append_nil] at own
      have tail : Tiles (offset + Source.byteLength p.chars) (ps.flatMap Piece.chars)
          (solidSpans (offset + Source.byteLength p.chars) ps) :=
        ih (fun q member => some q (List.mem_cons_of_mem _ member)) rest
      rw [List.flatMap_cons]
      by_cases trivia : p.kind = .trivia
      · have spans : solidSpans offset (p :: ps) =
            solidSpans (offset + Source.byteLength p.chars) ps := by
          simp [solidSpans, placed, Piece.solid, trivia]
        rw [spans]
        generalize ps.flatMap Piece.chars = text at own tail ⊢
        generalize solidSpans (offset + Source.byteLength p.chars) ps = spans at tail ⊢
        cases tail with
        | done gap => exact .done (trivia_of_cut trivia (by simpa using own) gap)
        | span gap some starts stops tail =>
            rw [← List.append_assoc]
            refine .span (trivia_of_cut trivia own gap) some ?_ stops tail
            rw [starts, Source.byteLength_append, Nat.add_assoc]
      · have spans : solidSpans offset (p :: ps) =
            ⟨offset, offset + Source.byteLength p.chars⟩ ::
              solidSpans (offset + Source.byteLength p.chars) ps := by
          simp [solidSpans, placed, Piece.solid, trivia]
        rw [spans]
        have gap : Trivia (p.chars ++ ps.flatMap Piece.chars) [] := .done
        exact .span gap (some p List.mem_cons_self) rfl rfl tail

/-- The tokens and the faults together are what is no trivia. -/
theorem perm_solidSpans (offset : Nat) (ps : List Piece) :
    (((placed offset ps).filterMap Lexeme.ofPiece?).map (·.span) ++
      ((placed offset ps).filterMap Fault.ofPiece?).map (·.span)).Perm (solidSpans offset ps) := by
  unfold solidSpans
  induction placed offset ps with
  | nil => exact .nil
  | cons p ps ih =>
      obtain ⟨⟨kind, chars⟩, span⟩ := p
      cases kind with
      | trivia => exact ih
      | token k => exact ih.cons span
      | unclosedComment | unexpected => exact List.perm_middle.trans (ih.cons span)

/-- The tokens stand in the order of the text, and so do the faults. -/
theorem sublist_solidSpans (offset : Nat) (ps : List Piece) :
    (((placed offset ps).filterMap Lexeme.ofPiece?).map (·.span)).Sublist (solidSpans offset ps) ∧
      (((placed offset ps).filterMap Fault.ofPiece?).map (·.span)).Sublist (solidSpans offset ps) := by
  unfold solidSpans
  induction placed offset ps with
  | nil => exact ⟨.slnil, .slnil⟩
  | cons p ps ih =>
      obtain ⟨⟨kind, chars⟩, span⟩ := p
      cases kind with
      | trivia => exact ih
      | token k => exact ⟨ih.1.cons_cons span, ih.2.cons span⟩
      | unclosedComment | unexpected => exact ⟨ih.1.cons span, ih.2.cons_cons span⟩

/-- A piece is cut out of the source where it is placed. -/
theorem cutout_of_mem {p : Piece} {before : Source} (member : (p, s) ∈ placed offset ps)
    (cuts : Cuts ps []) (text : source = before ++ ps.flatMap Piece.chars)
    (length : offset = Source.byteLength before) :
    ∃ after, Cutout source s p.chars after ∧ p.Cut after := by
  induction ps generalizing offset before with
  | nil => cases member
  | cons q ps ih =>
      obtain ⟨own, rest⟩ := cuts
      rw [List.append_nil] at own
      rw [List.flatMap_cons] at text
      rcases List.mem_cons.1 member with same | member
      · cases same
        exact ⟨_, ⟨before, text, length, rfl⟩, own⟩
      · exact ih member rest (text.trans (List.append_assoc _ _ _).symm) (by simp [length])

theorem tiles_pieces (source : Source) : Tiles 0 source (solidSpans 0 (pieces source)) := by
  have tiles : Tiles 0 ((pieces source).flatMap Piece.chars) (solidSpans 0 (pieces source)) :=
    tiles_solidSpans (fun p member => chars_ne_nil_of_mem member) (cuts_pieces source)
  rwa [flatMap_chars_pieces] at tiles

end Placed

/-- At a token no comment begins, and nothing longer spells a pattern. -/
theorem longest_of_first {c : Char} {k : Kind}
    (cut : first c (cs ++ after) = (.token k, cs.length)) :
    (∀ (other : Kind) (front : Source), front <+: c :: cs ++ after → other.Spells front →
      front.length ≤ (c :: cs).length) ∧
    ¬ ['/', '/'] <+: c :: cs ++ after ∧ ¬ ['/', '*'] <+: c :: cs ++ after := by
  refine ⟨fun other front here spells => ?_, fun here => ?_, fun here => ?_⟩
  · obtain ⟨rest, same⟩ := here
    cases front with
    | nil => exact Nat.zero_le _
    | cons d ds =>
        obtain ⟨rfl, tail⟩ : d = c ∧ ds ++ rest = cs ++ after := List.cons.inj same
        rw [← tail] at cut
        have le := spells.le_first (congrArg Prod.fst cut)
        rw [cut] at le
        exact Nat.succ_le_succ le
  · obtain ⟨rfl, next⟩ := List.cons_prefix_cons.1 here
    obtain ⟨rest, same⟩ : ['/'] <+: cs ++ after := next
    have line : start '/' (cs ++ after).head? = .line := by
      rw [← same]
      rfl
    rw [first_eq, line] at cut
    cases cut
  · obtain ⟨rfl, next⟩ := List.cons_prefix_cons.1 here
    obtain ⟨rest, same⟩ : ['*'] <+: cs ++ after := next
    have block : start '/' (cs ++ after).head? = .block := by
      rw [← same]
      rfl
    rw [first_eq, block] at cut
    simp only [blockAt] at cut
    split at cut <;> cases cut

section Scanned

/-- The tokens do not overlap, and neither do the faults. -/
theorem scan_pairwise (source : Source) :
    (scan source).lexemes.Pairwise (fun a b => a.span.stop ≤ b.span.start) ∧
      (scan source).faults.Pairwise (fun a b => a.span.stop ≤ b.span.start) := by
  have ordered := (tiles_pieces source).pairwise
  have parts := sublist_solidSpans 0 (pieces source)
  exact ⟨List.pairwise_map.1 (ordered.sublist parts.1), List.pairwise_map.1 (ordered.sublist parts.2)⟩

theorem cutout_of_lexeme {l : Lexeme} (member : l ∈ (scan source).lexemes) :
    ∃ after c cs, l.text.toList = c :: cs ∧ Cutout source l.span (c :: cs) after ∧
      first c (cs ++ after) = (.token l.kind, cs.length) := by
  obtain ⟨⟨⟨kind, chars⟩, span⟩, placed, lexeme⟩ := List.mem_filterMap.1 member
  have text : source = [] ++ (pieces source).flatMap Piece.chars := (flatMap_chars_pieces source).symm
  obtain ⟨after, cutout, c, cs, same, cut⟩ := cutout_of_mem placed (cuts_pieces source) text rfl
  cases kind with
  | token k =>
      cases lexeme
      obtain rfl : chars = c :: cs := same
      exact ⟨after, c, cs, String.toList_ofList, cutout, cut⟩
  | trivia | unclosedComment | unexpected => cases lexeme

theorem cutout_of_fault {f : Fault} (member : f ∈ (scan source).faults) :
    ∃ chars after, Cutout source f.span chars after ∧ Faulty after f.cause chars := by
  obtain ⟨⟨⟨kind, chars⟩, span⟩, placed, fault⟩ := List.mem_filterMap.1 member
  have text : source = [] ++ (pieces source).flatMap Piece.chars := (flatMap_chars_pieces source).symm
  obtain ⟨after, cutout, c, cs, same, cut⟩ := cutout_of_mem placed (cuts_pieces source) text rfl
  obtain rfl : chars = c :: cs := same
  cases kind with
  | unclosedComment =>
      cases fault
      exact ⟨c :: cs, after, cutout, faulty_of_comment cut⟩
  | unexpected =>
      cases fault
      exact ⟨c :: cs, after, cutout, faulty_of_unexpected cut⟩
  | trivia | token => cases fault

theorem cutout_of_solid (member : s ∈ solidSpans 0 (pieces source)) :
    s.start < s.stop ∧ s.stop ≤ Source.byteLength source ∧
      ∃ chars after, Cutout source s chars after := by
  obtain ⟨-, some, le⟩ := (tiles_pieces source).bounds member
  obtain ⟨⟨p, s⟩, placed, rfl⟩ := List.mem_map.1 member
  have text : source = [] ++ (pieces source).flatMap Piece.chars := (flatMap_chars_pieces source).symm
  obtain ⟨after, cutout, -⟩ :=
    cutout_of_mem (List.mem_filter.1 placed).1 (cuts_pieces source) text rfl
  exact ⟨some, by simpa using le, p.chars, after, cutout⟩

end Scanned

/-- The tokens and the faults of a text follow one another, and between them, in
front and behind there is nothing but trivia. Each token spells its kind, no
other pattern takes more of the text there, and no keyword is an identifier. A fault
stands where no pattern spells anything, or is a comment or a hexadecimal string that
is not closed. -/
theorem scan_tiles (source : Source) :
    let found := scan source
    let spans := Span.sort (found.lexemes.map (·.span) ++ found.faults.map (·.span))
    Tiles 0 source spans ∧
    spans.Pairwise (fun a b => a.stop ≤ b.start) ∧
    (∀ s ∈ spans, s.start < s.stop ∧ s.stop ≤ Source.byteLength source ∧
      ∃ chars after, Cutout source s chars after) ∧
    found.lexemes.Pairwise (fun a b => a.span.stop ≤ b.span.start) ∧
    found.faults.Pairwise (fun a b => a.span.stop ≤ b.span.start) ∧
    (∀ l ∈ found.lexemes, ∃ after, Cutout source l.span l.text.toList after ∧
      l.kind.Spells l.text.toList ∧
      (∀ (other : Kind) (front : Source), front <+: l.text.toList ++ after → other.Spells front →
        front.length ≤ l.text.toList.length) ∧
      ¬ ['/', '/'] <+: l.text.toList ++ after ∧ ¬ ['/', '*'] <+: l.text.toList ++ after ∧
      (l.kind = .identifier → ∀ k : Keyword, k.text.toList ≠ l.text.toList)) ∧
    ∀ f ∈ found.faults, ∃ chars after, Cutout source f.span chars after ∧ Faulty after f.cause chars := by
  intro found spans
  have tiles := tiles_pieces source
  have sorted : spans = solidSpans 0 (pieces source) :=
    sort_eq (perm_solidSpans 0 (pieces source)) (tiles.pairwise.imp_of_mem fun member _ le =>
      before_of_le (tiles.bounds member).2.1 le)
  rw [sorted]
  refine ⟨tiles, tiles.pairwise, fun s => cutout_of_solid, (scan_pairwise source).1,
    (scan_pairwise source).2, fun l member => ?_, fun f => cutout_of_fault⟩
  obtain ⟨after, c, cs, text, cutout, cut⟩ := cutout_of_lexeme member
  obtain ⟨spells, word⟩ := spells_of_first cut
  obtain ⟨longest, line, block⟩ := longest_of_first cut
  rw [text]
  exact ⟨after, cutout, spells, longest, line, block, word⟩

/-- A text with a character of no token, a string and a hexadecimal string that are not
closed, the end of a comment that has not been opened, and one that is not closed. -/
def brokenSource : Source := "a # \"b\n hex'zz */ /* c".toList

theorem scan_tiles_broken :
    (scan brokenSource).faults.map (·.span) = [⟨2, 3⟩, ⟨4, 6⟩, ⟨8, 12⟩, ⟨18, 22⟩] ∧
    (scan brokenSource).lexemes.map (·.text) = ["a", "zz", "*", "/"] ∧
    ∀ f ∈ (scan brokenSource).faults,
      ∃ chars after, Cutout brokenSource f.span chars after ∧ Faulty after f.cause chars := by
  obtain ⟨-, -, -, -, -, -, faults⟩ := scan_tiles brokenSource
  exact ⟨by decide +kernel, by decide +kernel, faults⟩

end SafeSubset.Token
