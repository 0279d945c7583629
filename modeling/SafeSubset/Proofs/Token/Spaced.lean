import SafeSubset.Proofs.Grammar.Progress
import SafeSubset.Proofs.Source.Bytes

/-! Tokens with the white space and the comments before them. Consecutive
tokens then make up a stretch of text without a rest, and the place and the
text of each follow from where the stretch begins. -/
namespace SafeSubset.Token

/-- A token and the texts of the trivia before it. -/
structure Spaced where
  gap : List Source
  kind : Kind
  chars : Source
  chars_ne : chars ≠ []

namespace Spaced

variable (t : Spaced)

def gapText : Source := t.gap.flatten

def text : Source := t.gapText ++ t.chars

def pieces : List Piece := t.gap.map (⟨.trivia, ·⟩) ++ [⟨.token t.kind, t.chars⟩]

/-- The token where its trivia starts at `offset`. -/
def lexeme (offset : Nat) : Lexeme :=
  let start := offset + Source.byteLength t.gapText
  ⟨t.kind, String.ofList t.chars, ⟨start, start + Source.byteLength t.chars⟩⟩

end Spaced

/-- The text of some tokens with all their trivia. -/
def textOf (ts : List Spaced) : Source := ts.flatMap Spaced.text

def width (ts : List Spaced) : Nat := Source.byteLength (textOf ts)

/-- The text of some tokens from the first one on. -/
def core : List Spaced → Source
  | [] => []
  | t :: ts => t.chars ++ textOf ts

/-- The tokens of a stretch of text that starts at `offset`. -/
def lexemes : (offset : Nat) → List Spaced → List Lexeme
  | _, [] => []
  | offset, t :: ts => t.lexeme offset :: lexemes (offset + Source.byteLength t.text) ts

/-- The place of the tokens of a stretch of text that starts at `offset`. -/
def extent (offset : Nat) (ts : List Spaced) : Span :=
  ⟨offset + Source.byteLength ((ts.head?.map Spaced.gapText).getD []), offset + width ts⟩

/-- The text has the tokens at an offset, and perhaps more before and behind. -/
def Holds (source : Source) (offset : Nat) (ts : List Spaced) : Prop :=
  ∃ before after, source = before ++ (textOf ts ++ after) ∧ Source.byteLength before = offset

variable {ts us : List Spaced} {offset : Nat}

@[simp] theorem textOf_nil : textOf [] = [] := rfl

@[simp] theorem textOf_append (ts us : List Spaced) : textOf (ts ++ us) = textOf ts ++ textOf us := by
  simp [textOf]

@[simp] theorem width_nil : width [] = 0 := rfl

@[simp] theorem width_append (ts us : List Spaced) : width (ts ++ us) = width ts + width us := by
  simp [width]

theorem width_cons (t : Spaced) (ts : List Spaced) :
    width (t :: ts) = Source.byteLength t.text + width ts := by
  simp [width, textOf]

theorem width_pos (some : ts ≠ []) : 0 < width ts := by
  cases ts with
  | nil => contradiction
  | cons t ts =>
      have := Source.byteLength_pos t.chars_ne
      simp only [width_cons, Spaced.text, Source.byteLength_append]
      omega

theorem lexemes_append (offset : Nat) (ts us : List Spaced) :
    lexemes offset (ts ++ us) = lexemes offset ts ++ lexemes (offset + width ts) us := by
  induction ts generalizing offset with
  | nil => rfl
  | cons t ts ih => simp [lexemes, ih, width_cons, Nat.add_assoc]

@[simp] theorem length_lexemes (offset : Nat) (ts : List Spaced) :
    (lexemes offset ts).length = ts.length := by
  induction ts generalizing offset with
  | nil => rfl
  | cons t ts ih => simp [lexemes, ih]

theorem placed_append (offset : Nat) (ps qs : List Piece) :
    placed offset (ps ++ qs) =
      placed offset ps ++ placed (offset + Source.byteLength (ps.flatMap Piece.chars)) qs := by
  induction ps generalizing offset with
  | nil => rfl
  | cons p ps ih => simp [placed, ih, Nat.add_assoc]

/-- White space and comments are no tokens. -/
theorem lexemes_trivia (offset : Nat) (gap : List Source) :
    (placed offset (gap.map (⟨.trivia, ·⟩))).filterMap Lexeme.ofPiece? = [] := by
  induction gap generalizing offset with
  | nil => rfl
  | cons cs gap ih =>
      rw [List.map_cons, placed, List.filterMap_cons_none rfl]
      exact ih _

@[simp] theorem chars_trivia (gap : List Source) :
    (gap.map (⟨.trivia, ·⟩)).flatMap Piece.chars = gap.flatten := by
  induction gap with
  | nil => rfl
  | cons cs gap ih => simp [ih]

theorem chars_pieces (t : Spaced) : t.pieces.flatMap Piece.chars = t.text := by
  simp [Spaced.pieces, Spaced.text, Spaced.gapText]

/-- The tokens among the pieces of a stretch. -/
theorem lexemes_pieces (offset : Nat) (ts : List Spaced) :
    (placed offset (ts.flatMap Spaced.pieces)).filterMap Lexeme.ofPiece? = lexemes offset ts := by
  induction ts generalizing offset with
  | nil => rfl
  | cons t ts ih =>
      rw [List.flatMap_cons, placed_append, List.filterMap_append, ih, chars_pieces]
      simp [Spaced.pieces, placed_append, lexemes_trivia, placed, Lexeme.ofPiece?, lexemes,
        Spaced.lexeme, Spaced.gapText]

theorem getLast_lexemes (offset : Nat) (some : ts ≠ []) :
    (lexemes offset ts).getLast?.map (·.span.stop) = Option.some (offset + width ts) := by
  induction ts generalizing offset with
  | nil => contradiction
  | cons t ts ih =>
      cases ts with
      | nil => simp [lexemes, Spaced.lexeme, width_cons, Spaced.text, Nat.add_assoc]
      | cons u us =>
          have tail := ih (offset + Source.byteLength t.text) (by simp)
          rw [Nat.add_assoc, ← width_cons] at tail
          rw [← tail]
          simp [lexemes]

theorem spanOf_lexemes (offset : Nat) (some : ts ≠ []) :
    Grammar.spanOf (lexemes offset ts) = extent offset ts := by
  have last := getLast_lexemes offset some
  cases ts with
  | nil => contradiction
  | cons t ts =>
      rw [Grammar.spanOf, last]
      rfl

theorem le_extent (offset : Nat) (ts : List Spaced) : offset ≤ (extent offset ts).start :=
  Nat.le_add_right _ _

theorem extent_stop (offset : Nat) (ts : List Spaced) :
    (extent offset ts).stop = offset + width ts := rfl

theorem extent_lt (offset : Nat) (some : ts ≠ []) :
    (extent offset ts).start < (extent offset ts).stop := by
  cases ts with
  | nil => contradiction
  | cons t ts =>
      have := Source.byteLength_pos t.chars_ne
      simp only [extent, List.head?_cons, Option.map_some, Option.getD_some, width_cons, Spaced.text,
        Source.byteLength_append]
      omega

/-- More tokens leave the start where it is. -/
theorem extent_append (offset : Nat) (some : ts ≠ []) :
    extent offset (ts ++ us) =
      ⟨(extent offset ts).start, (extent (offset + width ts) us).stop⟩ := by
  cases ts with
  | nil => contradiction
  | cons t ts => simp [extent, width_cons, Nat.add_assoc]

theorem gapText_core (some : ts ≠ []) :
    textOf ts = (ts.head?.map Spaced.gapText).getD [] ++ core ts := by
  cases ts with
  | nil => contradiction
  | cons t ts => simp [core, textOf, Spaced.text]

/-- The text of the place of some tokens. -/
theorem Holds.slice {source : Source} (holds : Holds source offset ts) (some : ts ≠ []) :
    Source.slice source (extent offset ts) = core ts := by
  obtain ⟨before, after, rfl, rfl⟩ := holds
  have cut := Source.slice_append (before ++ (ts.head?.map Spaced.gapText).getD []) (core ts) after
  simpa [extent, width, gapText_core some, Nat.add_assoc] using cut

theorem Holds.left {source : Source} (holds : Holds source offset (ts ++ us)) :
    Holds source offset ts := by
  obtain ⟨before, after, rfl, rfl⟩ := holds
  exact ⟨before, textOf us ++ after, by simp, rfl⟩

theorem Holds.right {source : Source} (holds : Holds source offset (ts ++ us)) :
    Holds source (offset + width ts) us := by
  obtain ⟨before, after, rfl, rfl⟩ := holds
  exact ⟨before ++ textOf ts, after, by simp, by simp [width]⟩

/-- What holds behind the first token. -/
theorem Holds.tail {source : Source} {t : Spaced} (holds : Holds source offset (t :: us)) :
    Holds source (offset + width [t]) us :=
  right (show Holds source offset ([t] ++ us) from holds)

end SafeSubset.Token
