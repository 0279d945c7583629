import SafeSubset.Proofs.Token.Spaced

/-! Cutting a text into pieces. The pieces tile the text, and in a text without
faults they are tokens with the trivia before them. -/
namespace SafeSubset.Token

variable {cs : Source} {ps : List Piece}

theorem chars_piecesAfter (skip : Nat) (cs : Source) :
    (piecesAfter skip cs).flatMap Piece.chars = cs.drop skip := by
  induction cs generalizing skip with
  | nil => cases skip <;> rfl
  | cons c cs ih =>
      cases skip with
      | zero => simp [piecesAfter, ih]
      | succ skip => simp [piecesAfter, ih]

/-- The pieces of a text are the text. -/
theorem flatMap_chars_pieces (cs : Source) : (pieces cs).flatMap Piece.chars = cs :=
  chars_piecesAfter 0 cs

theorem chars_ne_nil_of_mem {skip : Nat} {p : Piece} (h : p ∈ piecesAfter skip cs) :
    p.chars ≠ [] := by
  induction cs generalizing skip with
  | nil => cases skip <;> cases h
  | cons c cs ih =>
      cases skip with
      | zero =>
          rcases List.mem_cons.1 h with rfl | h
          · simp
          · exact ih h
      | succ skip => exact ih h

/-- Whether a piece is no fault. -/
def Piece.Sound (p : Piece) : Prop := p.kind = .trivia ∨ ∃ kind, p.kind = .token kind

theorem sound_of_faultless {offset : Nat}
    (h : (placed offset ps).filterMap Fault.ofPiece? = []) : ∀ p ∈ ps, p.Sound := by
  induction ps generalizing offset with
  | nil => simp
  | cons p ps ih =>
      obtain ⟨kind, chars⟩ := p
      have own : Fault.ofPiece? (⟨kind, chars⟩, ⟨offset, offset + Source.byteLength chars⟩) = none := by
        cases found : Fault.ofPiece? (⟨kind, chars⟩, ⟨offset, offset + Source.byteLength chars⟩) with
        | none => rfl
        | some f => simp [placed, found] at h
      rw [placed, List.filterMap_cons_none own] at h
      intro q hq
      rcases List.mem_cons.1 hq with rfl | hq
      · cases kind with
        | trivia => exact .inl rfl
        | token kind => exact .inr ⟨kind, rfl⟩
        | unclosedComment | unexpected => cases own
      · exact ih h q hq

theorem faultless_of_sound {offset : Nat} (h : ∀ p ∈ ps, p.Sound) :
    (placed offset ps).filterMap Fault.ofPiece? = [] := by
  induction ps generalizing offset with
  | nil => rfl
  | cons p ps ih =>
      obtain ⟨kind, chars⟩ := p
      have own : Fault.ofPiece? (⟨kind, chars⟩, ⟨offset, offset + Source.byteLength chars⟩) = none := by
        rcases h _ List.mem_cons_self with same | ⟨kind, same⟩ <;> cases same <;> rfl
      rw [placed, List.filterMap_cons_none own]
      exact ih fun q hq => h q (List.mem_cons_of_mem _ hq)

/-- Pieces without a fault are tokens with the trivia before them, and the
trivia behind the last. -/
theorem spaced_of_sound (some : ∀ p ∈ ps, p.chars ≠ []) (sound : ∀ p ∈ ps, p.Sound) :
    ∃ (ts : List Spaced) (tail : List Source),
      ps = ts.flatMap Spaced.pieces ++ tail.map (⟨.trivia, ·⟩) := by
  induction ps with
  | nil => exact ⟨[], [], rfl⟩
  | cons p ps ih =>
      obtain ⟨ts, tail, rfl⟩ := ih (fun q hq => some q (List.mem_cons_of_mem _ hq))
        fun q hq => sound q (List.mem_cons_of_mem _ hq)
      obtain ⟨kind, chars⟩ := p
      rcases sound _ List.mem_cons_self with same | ⟨kind, same⟩
      · cases same
        cases ts with
        | nil => exact ⟨[], chars :: tail, rfl⟩
        | cons t ts => exact ⟨⟨chars :: t.gap, t.kind, t.chars, t.chars_ne⟩ :: ts, tail, rfl⟩
      · cases same
        exact ⟨⟨[], kind, chars, some _ List.mem_cons_self⟩ :: ts, tail, rfl⟩

theorem scan_of_pieces {source : Source} {ts : List Spaced} {tail : List Source}
    (h : pieces source = ts.flatMap Spaced.pieces ++ tail.map (⟨.trivia, ·⟩)) :
    (scan source).lexemes = lexemes 0 ts ∧ source = textOf ts ++ tail.flatten := by
  constructor
  · simp only [scan, h, placed_append, List.filterMap_append, lexemes_pieces, lexemes_trivia,
      List.append_nil]
  · have text := flatMap_chars_pieces source
    have own : (fun t : Spaced => t.pieces.flatMap Piece.chars) = Spaced.text := funext chars_pieces
    rw [h, List.flatMap_append, chars_trivia, List.flatMap_assoc, own] at text
    exact text.symm

/-- A text without faults is its tokens and the trivia behind them. -/
theorem scan_faultless {source : Source} (h : (scan source).faults = []) :
    ∃ (ts : List Spaced) (tail : List Source),
      pieces source = ts.flatMap Spaced.pieces ++ tail.map (⟨.trivia, ·⟩) ∧
      (scan source).lexemes = lexemes 0 ts ∧ Holds source 0 ts := by
  obtain ⟨ts, tail, same⟩ := spaced_of_sound (fun p hp => chars_ne_nil_of_mem hp)
    (sound_of_faultless h)
  obtain ⟨found, text⟩ := scan_of_pieces same
  exact ⟨ts, tail, same, found, [], tail.flatten, text, rfl⟩

/-- Pieces are tokens with what else stands before them, which may be faults. -/
theorem spaced_of_pieces (some : ∀ p ∈ ps, p.chars ≠ []) :
    ∃ (ts : List Spaced) (tail : Source), ps.flatMap Piece.chars = textOf ts ++ tail ∧
      ∀ offset, (placed offset ps).filterMap Lexeme.ofPiece? = lexemes offset ts := by
  induction ps with
  | nil => exact ⟨[], [], rfl, fun _ => rfl⟩
  | cons p ps ih =>
      obtain ⟨ts, tail, text, found⟩ := ih fun q hq => some q (List.mem_cons_of_mem _ hq)
      obtain ⟨kind, chars⟩ := p
      by_cases token : ∃ k, kind = .token k
      · obtain ⟨k, rfl⟩ := token
        refine ⟨⟨[], k, chars, some _ List.mem_cons_self⟩ :: ts, tail, ?_, fun offset => ?_⟩
        · simp [text, textOf, Spaced.text, Spaced.gapText]
        · simp [placed, Lexeme.ofPiece?, found, lexemes, Spaced.lexeme, Spaced.text, Spaced.gapText]
      · have none : ∀ span, Lexeme.ofPiece? (⟨kind, chars⟩, span) = Option.none := by
          intro span
          cases kind with
          | token k => exact absurd ⟨k, rfl⟩ token
          | _ => rfl
        cases ts with
        | nil =>
            refine ⟨[], chars ++ tail, by simp [text], fun offset => ?_⟩
            simp [placed, none, found, lexemes]
        | cons t ts =>
            refine ⟨⟨chars :: t.gap, t.kind, t.chars, t.chars_ne⟩ :: ts, tail, ?_, fun offset => ?_⟩
            · simp [text, textOf, Spaced.text, Spaced.gapText]
            · simp [placed, none, found, lexemes, Spaced.lexeme, Spaced.text, Spaced.gapText, Nat.add_assoc]

/-- The tokens of any text stand in it. -/
theorem scan_holds (source : Source) :
    ∃ ts, (scan source).lexemes = lexemes 0 ts ∧ Holds source 0 ts := by
  have some : ∀ p ∈ pieces source, p.chars ≠ [] := fun p member => chars_ne_nil_of_mem member
  obtain ⟨ts, tail, text, found⟩ := spaced_of_pieces some
  refine ⟨ts, found 0, [], tail, ?_, rfl⟩
  exact (flatMap_chars_pieces source).symm.trans text

end SafeSubset.Token
