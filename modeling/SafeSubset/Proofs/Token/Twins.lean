import SafeSubset.Proofs.Token.Divides

/-! Texts that differ in their white space and comments alone. They are cut into the
same words, so what is read off one of them by its words can be read off the other. -/
namespace SafeSubset.Token

variable {ts ts' us vs xs : List Spaced} {text : Source}

/-- A token without its place. -/
def Spaced.word (t : Spaced) : Kind × String := (t.kind, String.ofList t.chars)

theorem words_of_lexemes {o : Nat} (found : (scan text).lexemes = lexemes o ts) :
    words text = ts.map Spaced.word := by
  rw [words, found]
  clear found
  induction ts generalizing o with
  | nil => rfl
  | cons t ts ih => simp [lexemes, Spaced.lexeme, Spaced.word, ih]

theorem words_of_lexes (h : Lexes ts []) : words (textOf ts) = ts.map Spaced.word :=
  words_of_lexemes (scan_of_lexes h).2

/-- What follows tokens may be left out. -/
theorem Lexes.alone {after : Source} (h : Lexes ts after) : Lexes ts [] :=
  h.soft ⟨.inr (by simp), by simp⟩

theorem core_eq_textOf (ts : List Spaced) : core ts = textOf (regap [] ts) := by
  cases ts <;> simp [core, regap, textOf, Spaced.text, Spaced.gapText]

/-- The text from the first token on has the words of the tokens. -/
theorem words_core (h : Lexes ts []) : words (core ts) = ts.map Spaced.word := by
  have bare : Lexes (regap [] ts) [] := h.regap trivial
  rw [core_eq_textOf, words_of_lexes bare]
  cases ts <;> rfl

/-- A text as its words alone, with one space between each two. -/
def respaced (text : String) : String :=
  String.intercalate " " ((words text.toList).map Prod.snd)

/-- Tokens that differ in nothing but the trivia before them. -/
structure Twins (ts ts' : List Spaced) : Prop where
  lexes : Lexes ts []
  lexes' : Lexes ts' []
  words : ts.map Spaced.word = ts'.map Spaced.word

namespace Twins

theorem length (twins : Twins ts ts') : ts.length = ts'.length := by
  simpa using congrArg List.length twins.words

/-- The parts of tokens have twins among the twins. -/
theorem append (twins : Twins (us ++ vs) xs) :
    ∃ us' vs', xs = us' ++ vs' ∧ Twins us us' ∧ Twins vs vs' := by
  obtain ⟨lexes, lexes', words⟩ := twins
  rw [List.map_append] at words
  obtain ⟨us', vs', rfl, left, right⟩ := List.map_eq_append_iff.1 words.symm
  obtain ⟨front, back⟩ := lexes_append.1 lexes
  obtain ⟨front', back'⟩ := lexes_append.1 lexes'
  exact ⟨us', vs', rfl, ⟨front.alone, front'.alone, left.symm⟩, back, back', right.symm⟩

theorem split (twins : Twins (us ++ vs) (ts ++ xs)) (length : ts.length = us.length) :
    Twins us ts ∧ Twins vs xs := by
  obtain ⟨us', vs', same, left, right⟩ := twins.append
  obtain ⟨rfl, rfl⟩ := List.append_inj same (length.trans left.length)
  exact ⟨left, right⟩

theorem respaced (twins : Twins ts ts') :
    respaced (String.ofList (core ts)) = respaced (String.ofList (core ts')) := by
  simp only [Token.respaced, String.toList_ofList, words_core twins.lexes, words_core twins.lexes',
    twins.words]

end Twins

/-- A text without faults is cut into its tokens. -/
theorem exists_lexes {source : Source} (faultless : Faultless source) :
    ∃ ts, (scan source).lexemes = lexemes 0 ts ∧ Holds source 0 ts ∧ Lexes ts [] := by
  obtain ⟨ts, tail, cut, found, holds⟩ := scan_faultless faultless
  have cuts := cuts_pieces source
  rw [cut, cuts_append] at cuts
  exact ⟨ts, found, holds, Lexes.alone cuts.1⟩

/-- The tokens of two texts without faults and with the same words are twins. -/
theorem twins_of_words {source source' : Source} (faultless : Faultless source)
    (faultless' : Faultless source') (same : words source = words source') :
    ∃ ts ts', (scan source).lexemes = lexemes 0 ts ∧ Holds source 0 ts ∧
      (scan source').lexemes = lexemes 0 ts' ∧ Holds source' 0 ts' ∧ Twins ts ts' := by
  obtain ⟨ts, found, holds, lexes⟩ := exists_lexes faultless
  obtain ⟨ts', found', holds', lexes'⟩ := exists_lexes faultless'
  refine ⟨ts, ts', found, holds, found', holds', lexes, lexes', ?_⟩
  rw [← words_of_lexemes found, ← words_of_lexemes found', same]

end SafeSubset.Token
