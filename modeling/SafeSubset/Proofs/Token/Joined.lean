import SafeSubset.Proofs.Token.Twins

/-! The tokens of a text, put together again with one space between each two. The text
that they make up is cut into the same tokens, so the texts of the tokens alone say what
each of them is: no token goes by what stood behind it. -/
namespace SafeSubset.Token

variable {ts : List Spaced} {t : Spaced} {source x : Source}

/-- The texts of the tokens with one space between each two. -/
def joined (source : Source) : Source :=
  (String.intercalate " " ((scan source).lexemes.map Lexeme.text)).toList

/-- The token behind one space. -/
def Spaced.apart (t : Spaced) : Spaced := { t with gap := [[' ']] }

/-- The tokens with one space between each two. -/
def evenly : List Spaced → List Spaced
  | [] => []
  | t :: ts => { t with gap := [] } :: ts.map Spaced.apart

/-- One space is all of the trivia before a token. -/
theorem parted_space (solid : ∀ d ∈ x.head?, isSpace d = false) : Parted [[' ']] x := by
  have run : runLength isSpace x = 0 := runLength_eq_zero.2 solid
  refine ⟨⟨' ', [], rfl, ?_⟩, trivial⟩
  show first ' ' x = (.trivia, 0)
  rw [first_eq, start_space.2 rfl, run]

theorem apart_soft (ts : List Spaced) (x : Source) : Soft x (textOf (ts.map Spaced.apart)) := by
  cases ts with
  | nil => exact ⟨.inr (by simp), by simp⟩
  | cons t ts =>
      have space : textOf ((t :: ts).map Spaced.apart) =
          ' ' :: (t.chars ++ textOf (ts.map Spaced.apart)) := rfl
      rw [space]
      exact soft_of_stop (by simp [stops]) _

/-- Tokens end before a space as they ended in their own text. -/
theorem Lexes.apart (h : Lexes ts x) : Lexes (ts.map Spaced.apart) [] := by
  induction ts with
  | nil => trivial
  | cons t ts ih =>
      have solid := h.solid
      obtain ⟨-, cut, rest⟩ := lexes_cons.1 h
      have soft := apart_soft ts (textOf ts ++ x)
      refine lexes_cons.2 ⟨parted_space ?_, ?_, ih rest⟩
      · intro d head
        obtain ⟨c, cs, chars⟩ := List.exists_cons_of_ne_nil t.chars_ne
        refine solid d ?_
        rw [show t.apart.chars = t.chars from rfl, chars] at head
        rw [chars]
        exact head
      · rw [List.append_nil]
        exact cut_congr (t := t) cut soft.1 fun _ => soft.quiet

theorem Lexes.evenly (h : Lexes ts x) : Lexes (evenly ts) [] := by
  cases ts with
  | nil => trivial
  | cons t ts =>
      obtain ⟨-, cut, rest⟩ := lexes_cons.1 h.apart
      exact lexes_cons.2 ⟨trivial, cut, rest⟩

theorem words_evenly (ts : List Spaced) : (evenly ts).map Spaced.word = ts.map Spaced.word := by
  cases ts with
  | nil => rfl
  | cons t ts =>
      rw [evenly, List.map_cons, List.map_cons, List.map_map]
      rfl

theorem textOf_evenly_cons (t u : Spaced) (us : List Spaced) :
    textOf (evenly (t :: u :: us)) = t.chars ++ ([' '] ++ textOf (evenly (u :: us))) := by
  simp [evenly, textOf, Spaced.text, Spaced.gapText, Spaced.apart]

theorem textOf_evenly (ts : List Spaced) :
    textOf (evenly ts) = [' '].intercalate (ts.map Spaced.chars) := by
  induction ts with
  | nil => rfl
  | cons t ts ih =>
      cases ts with
      | nil => simp [evenly, textOf, Spaced.text, Spaced.gapText]
      | cons u us =>
          rw [textOf_evenly_cons, ih, List.map_cons, List.map_cons, List.map_cons,
            List.intercalate_cons_cons, List.append_assoc]

theorem texts_lexemes (o : Nat) (ts : List Spaced) :
    ((lexemes o ts).map Lexeme.text).map String.toList = ts.map Spaced.chars := by
  induction ts generalizing o with
  | nil => rfl
  | cons t ts ih =>
      rw [lexemes, List.map_cons, List.map_cons, ih, List.map_cons]
      congr 1
      exact String.toList_ofList

theorem joined_eq (found : (scan source).lexemes = lexemes 0 ts) :
    joined source = textOf (evenly ts) := by
  rw [joined, found, String.toList_intercalate, texts_lexemes, textOf_evenly]
  rfl

/-- Joined by single spaces, the tokens of a text without faults make up a text without
faults that has the same tokens. So any other text without faults whose tokens have the
same texts has tokens of the same kinds. -/
theorem joined_lexes (faultless : (scan source).faults = []) :
    (scan (joined source)).faults = [] ∧
    (scan (joined source)).lexemes.map (fun l => (l.kind, l.text)) =
      (scan source).lexemes.map (fun l => (l.kind, l.text)) ∧
    ∀ other : Source, (scan other).faults = [] →
      (scan other).lexemes.map Lexeme.text = (scan source).lexemes.map Lexeme.text →
      (scan other).lexemes.map Lexeme.kind = (scan source).lexemes.map Lexeme.kind := by
  have same : ∀ {text : Source}, Faultless text →
      Faultless (joined text) ∧ words (joined text) = words text := by
    intro text faultless
    obtain ⟨ts, found, -, lexes⟩ := exists_lexes faultless
    rw [joined_eq found, words_of_lexes lexes.evenly, words_evenly, words_of_lexemes found]
    exact ⟨(scan_of_lexes lexes.evenly).1, rfl⟩
  refine ⟨(same faultless).1, (same faultless).2, fun other faultless' texts => ?_⟩
  have again : joined other = joined source := by rw [joined, texts, joined]
  have equal : words other = words source :=
    (same faultless').2.symm.trans (again ▸ (same faultless).2)
  simpa [words, Function.comp_def] using congrArg (List.map Prod.fst) equal

/-- A text with marks that begin others, a number before a word, a word before a quotation,
a string that holds a comment and an escape, and comments. -/
def crowded : Source :=
  "a+++b/**/ -- 0x1g<<=1e;hex \"/* \\\" */\"//\nhex'00'".toList

theorem joined_lexes_crowded : (scan crowded).faults = [] ∧
    joined crowded = "a ++ + b -- 0x1 g <<= 1 e ; hex \"/* \\\" */\" hex'00'".toList ∧
    (scan (joined crowded)).faults = [] ∧
    (scan (joined crowded)).lexemes.map (fun l => (l.kind, l.text)) =
      (scan crowded).lexemes.map fun l => (l.kind, l.text) := by
  have faultless : (scan crowded).faults = [] := by decide +kernel
  obtain ⟨faultless', same, -⟩ := joined_lexes faultless
  exact ⟨faultless, by decide +kernel, faultless', same⟩

end SafeSubset.Token
