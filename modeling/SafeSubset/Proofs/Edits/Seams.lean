import SafeSubset.Proofs.Edits.Arranged
import SafeSubset.Proofs.Source.Bytes
import SafeSubset.Proofs.Token.Divides

/-! The tokens of a text with edits in place. Where no text of an edit grows together
with what stands before or behind it, they are those of the source around the edits
and those of the texts. -/
namespace SafeSubset.Edits

open Token (Kind Piece Lexeme Divides Sealed Faultless pieces words placed)

variable {source : Source} {as bs ms ps qs : List Piece} {es : List Edit} {start stop : Nat}

/-- The tokens of a source that start between two offsets. -/
def wordsBetween (source : Source) (start stop : Nat) : List (Kind × String) :=
  ((Token.scan source).lexemes.filter fun l => start ≤ l.span.start ∧ l.span.start < stop).map
    fun l => (l.kind, l.text)

/-- The tokens of a source from an offset to a stop, those in the place of each edit
being the tokens of its text alone. -/
def substitutedWords (source : Source) (stop : Nat) : (offset : Nat) → List Edit → List (Kind × String)
  | offset, [] => wordsBetween source offset stop
  | offset, e :: es =>
      wordsBetween source offset e.1.start ++ words e.2 ++ substitutedWords source stop e.1.stop es

/-- An edit at places between pieces of the source whose text is told apart from what
stands before and behind. -/
structure Seam (source : Source) (e : Edit) : Prop where
  place : ∃ as ds bs, pieces source = as ++ (ds ++ bs) ∧
    Source.byteLength (as.flatMap Piece.chars) = e.1.start ∧
    Source.byteLength ((as ++ ds).flatMap Piece.chars) = e.1.stop ∧
    ∀ qs ms, as = qs ++ ms → ∀ y, Divides ms (e.2 ++ y)
  sealed : Sealed e.2

theorem start_of_placed (o : Nat) {l : Lexeme} (some : ∀ p ∈ ps, p.chars ≠ [])
    (member : l ∈ (placed o ps).filterMap Lexeme.ofPiece?) :
    o ≤ l.span.start ∧ l.span.start < o + Source.byteLength (ps.flatMap Piece.chars) := by
  induction ps generalizing o with
  | nil => cases member
  | cons p ps ih =>
      have wide := Source.byteLength_pos (some p List.mem_cons_self)
      rw [placed, List.filterMap_cons] at member
      rw [List.flatMap_cons, Source.byteLength_append]
      have others : l ∈ (placed (o + Source.byteLength p.chars) ps).filterMap Lexeme.ofPiece? →
          o ≤ l.span.start ∧
            l.span.start < o + (Source.byteLength p.chars + Source.byteLength (ps.flatMap Piece.chars)) := by
        intro later
        have := ih _ (fun q inside => some q (List.mem_cons_of_mem p inside)) later
        omega
      split at member
      · exact others member
      · next first =>
        rcases List.mem_cons.1 member with rfl | later
        · obtain ⟨kind, chars⟩ := p
          cases kind with
          | token kind =>
              cases first
              exact ⟨Nat.le_refl _, Nat.lt_add_of_pos_right (Nat.add_pos_left wide _)⟩
          | trivia | unclosedComment | unexpected => cases first
        · exact others later

/-- Between two places that fall between its pieces a source has the tokens of the
pieces there. -/
theorem wordsBetween_pieces (same : pieces source = as ++ (ms ++ bs)) :
    wordsBetween source (Source.byteLength (as.flatMap Piece.chars))
      (Source.byteLength ((as ++ ms).flatMap Piece.chars)) = ms.filterMap Piece.word? := by
  have some : ∀ p ∈ as ++ (ms ++ bs), p.chars ≠ [] := by
    intro p member
    rw [← same] at member
    exact Token.chars_ne_nil_of_mem member
  have first := fun l => start_of_placed 0 (l := l) fun p inside =>
    some p (List.mem_append_left _ inside)
  have second := fun start l => start_of_placed start (l := l) fun p inside =>
    some p (List.mem_append_right as (List.mem_append_left bs inside))
  have third := fun start l => start_of_placed start (l := l) fun p inside =>
    some p (List.mem_append_right as (List.mem_append_right ms inside))
  simp only [wordsBetween, Token.scan, same, Token.placed_append, List.filterMap_append, List.filter_append]
  rw [List.filter_eq_nil_iff.2, List.filter_eq_self.2, List.filter_eq_nil_iff.2]
  · simp [Token.words_placed]
  · intro l member
    have := third _ l member
    simp
    omega
  · intro l member
    have := second _ l member
    simp
    omega
  · intro l member
    have := first l member
    simp
    omega

/-- A place between pieces that is not before another lies behind its pieces. -/
theorem prefix_of_byteLength (some : ∀ p ∈ as ++ bs, p.chars ≠ []) (same : as ++ bs = ps ++ qs)
    (le : Source.byteLength (as.flatMap Piece.chars) ≤ Source.byteLength (ps.flatMap Piece.chars)) :
    ∃ ms, ps = as ++ ms ∧ bs = ms ++ qs := by
  rcases List.append_eq_append_iff.1 same with ⟨ms, rfl, rfl⟩ | ⟨ms, rfl, rfl⟩
  · exact ⟨ms, rfl, rfl⟩
  · cases ms with
    | nil => exact ⟨[], by simp, by simp⟩
    | cons p ms =>
        have wide := Source.byteLength_pos (some p (by simp))
        simp only [List.flatMap_append, List.flatMap_cons, Source.byteLength_append] at le
        omega

theorem slice_pieces (same : pieces source = as ++ (ms ++ bs)) :
    Source.slice source ⟨Source.byteLength (as.flatMap Piece.chars),
      Source.byteLength ((as ++ ms).flatMap Piece.chars)⟩ = ms.flatMap Piece.chars := by
  have text := Token.flatMap_chars_pieces source
  rw [same, List.flatMap_append, List.flatMap_append] at text
  rw [← text, List.flatMap_append, Source.byteLength_append]
  exact Source.slice_append _ _ _

/-- From a place between its pieces to its end a source has the pieces behind it, and
their tokens. -/
theorem pieces_behind (same : pieces source = as ++ bs) :
    Source.slice source ⟨Source.byteLength (as.flatMap Piece.chars), Source.byteLength source⟩ =
        bs.flatMap Piece.chars ∧
      wordsBetween source (Source.byteLength (as.flatMap Piece.chars)) (Source.byteLength source) =
        bs.filterMap Piece.word? ∧ Token.Cuts bs [] := by
  have whole : Source.byteLength ((as ++ bs).flatMap Piece.chars) = Source.byteLength source := by
    rw [← same, Token.flatMap_chars_pieces]
  have last : pieces source = as ++ (bs ++ []) := by rw [same, List.append_nil]
  exact ⟨whole ▸ slice_pieces last, whole ▸ wordsBetween_pieces last,
    (Token.cuts_append.1 (same ▸ Token.cuts_pieces source)).2⟩

/-- From one place between its pieces to another a source has the pieces there. -/
theorem pieces_between (same : pieces source = as ++ bs) (same' : pieces source = ps ++ qs)
    (le : Source.byteLength (as.flatMap Piece.chars) ≤ Source.byteLength (ps.flatMap Piece.chars)) :
    ∃ ms, ps = as ++ ms ∧ bs = ms ++ qs ∧
      Source.slice source ⟨Source.byteLength (as.flatMap Piece.chars),
        Source.byteLength (ps.flatMap Piece.chars)⟩ = ms.flatMap Piece.chars := by
  have some : ∀ p ∈ as ++ bs, p.chars ≠ [] := fun p member =>
    Token.chars_ne_nil_of_mem (same ▸ member)
  obtain ⟨ms, rfl, rfl⟩ := prefix_of_byteLength some (same.symm.trans same') le
  exact ⟨ms, rfl, rfl, slice_pieces same⟩

/-- A source with edits in place has its own tokens around them and those of their
texts, and no fault. -/
theorem words_substituted (faultless : Faultless source) (seams : ∀ e ∈ es, Seam source e)
    (arranged : Arranged start (es.map Prod.fst) stop) (same : pieces source = as ++ bs)
    (here : Source.byteLength (as.flatMap Piece.chars) = start) (ends : Source.byteLength source = stop) :
    words (substituted source stop start es) = substitutedWords source stop start es ∧
      Faultless (substituted source stop start es) := by
  have sound := Token.faultless_iff.1 faultless
  induction es generalizing as bs start with
  | nil =>
      obtain ⟨slice, between, cuts⟩ := pieces_behind same
      have alone := Token.divides_of_cuts (fun p member => sound p (by simp [same, member])) cuts
      have words := alone.words
      have faultless := alone.faultless rfl
      rw [List.append_nil] at words faultless
      rw [Token.words_nil, List.append_nil] at words
      rw [here, ends] at slice between
      simp only [substituted, substitutedWords, slice, between]
      exact ⟨words, faultless⟩
  | cons e es ih =>
      obtain ⟨-⟩ | ⟨from_le, -, forward, rest⟩ := arranged
      obtain ⟨⟨as', ds, bs', same', starts, stops, divides⟩, sealed⟩ := seams e List.mem_cons_self
      obtain ⟨ms, rfl, rfl, slice⟩ := pieces_between same same' (here.trans_le (from_le.trans starts.ge))
      obtain ⟨words, faultless⟩ := ih (fun d member => seams d (List.mem_cons_of_mem e member)) rest
        (by rw [same', ← List.append_assoc]) stops
      -- The text is the source up to the edit, the edit's own text, and what follows.
      have front := divides as ms rfl (substituted source stop e.1.stop es)
      have between := wordsBetween_pieces same
      rw [here, starts] at slice between
      simp only [substituted, substitutedWords, slice, List.append_assoc]
      exact ⟨by rw [front.words, sealed.words, words, between],
        front.faultless (sealed.faultless _ faultless)⟩

/-- Text put in at the front has its own tokens there. -/
theorem words_front {text : Source} (sealed : Sealed text) (es : List Edit) :
    words (substituted source stop 0 ((.point 0, text) :: es)) =
        substitutedWords source stop 0 ((.point 0, text) :: es) ↔
      words (substituted source stop 0 es) = substitutedWords source stop 0 es := by
  have nothing : wordsBetween source 0 0 = [] := by simp [wordsBetween]
  simp only [substituted, substitutedWords, Span.point, Source.slice_empty, nothing, List.nil_append,
    sealed.words, List.append_cancel_left_eq]

end SafeSubset.Edits
