import SafeSubset.Proofs.Token.Lexes

/-! Texts put together. A text has the tokens of two parts of it, and no others, where
the last piece of the first part ends before the second as well. -/
namespace SafeSubset.Token

variable {ps qs : List Piece} {p : Piece} {ts : List Spaced} {c : Char} {cs x y z : Source}

/-- The kind and the text of a piece that is a token. -/
def Piece.word? : Piece → Option (Kind × String)
  | ⟨.token kind, chars⟩ => some (kind, String.ofList chars)
  | _ => none

/-- The kinds and the texts of the tokens of a text. -/
def words (text : Source) : List (Kind × String) :=
  (scan text).lexemes.map fun l => (l.kind, l.text)

def Faultless (text : Source) : Prop := (scan text).faults = []

theorem words_placed (offset : Nat) (ps : List Piece) :
    ((placed offset ps).filterMap Lexeme.ofPiece?).map (fun l => (l.kind, l.text)) =
      ps.filterMap Piece.word? := by
  induction ps generalizing offset with
  | nil => rfl
  | cons p ps ih =>
      obtain ⟨kind, chars⟩ := p
      cases kind with
      | token kind => simp [placed, Lexeme.ofPiece?, Piece.word?, ih]
      | trivia | unclosedComment | unexpected =>
          rw [placed, List.filterMap_cons_none rfl, List.filterMap_cons_none rfl, ih]

theorem words_eq (text : Source) : words text = (pieces text).filterMap Piece.word? :=
  words_placed 0 (pieces text)

theorem faultless_iff : Faultless x ↔ ∀ p ∈ pieces x, p.Sound :=
  ⟨sound_of_faultless, faultless_of_sound⟩

/-- Before a text, the pieces have their own tokens and no fault. -/
structure Divides (ps : List Piece) (y : Source) : Prop where
  words : words (ps.flatMap Piece.chars ++ y) = ps.filterMap Piece.word? ++ words y
  faultless : Faultless y → Faultless (ps.flatMap Piece.chars ++ y)

theorem divides_nil (y : Source) : Divides [] y := ⟨rfl, id⟩

theorem divides_of_cuts (sound : ∀ p ∈ ps, p.Sound) (cuts : Cuts ps y) : Divides ps y where
  words := by simp only [words_eq, pieces_append cuts, List.filterMap_append]
  faultless h := by
    rw [faultless_iff] at h ⊢
    rw [pieces_append cuts]
    intro p member
    rcases List.mem_append.1 member with member | member
    · exact sound p member
    · exact h p member

theorem Divides.append (first : Divides ps (qs.flatMap Piece.chars ++ y)) (second : Divides qs y) :
    Divides (ps ++ qs) y where
  words := by
    rw [List.flatMap_append, List.append_assoc, first.words, second.words, List.filterMap_append,
      List.append_assoc]
  faultless h := by
    rw [List.flatMap_append, List.append_assoc]
    exact first.faultless (second.faultless h)

section Space

/-- White space is no token, and where more of it follows it is one piece with that. -/
theorem divides_space (space : isSpace c = true) (y : Source) : Divides [⟨.trivia, [c]⟩] y := by
  have first : first c y = (.trivia, runLength isSpace y) := by
    rw [first_eq, start_space.2 space]
  have cut : pieces (c :: y) = ⟨.trivia, c :: y.take (runLength isSpace y)⟩ ::
      piecesAfter (runLength isSpace y) y := by
    rw [pieces, piecesAfter_cons, first]
  have whole : ([⟨.trivia, [c]⟩] : List Piece).flatMap Piece.chars ++ y = c :: y := rfl
  -- Behind the first piece of either text there are the same ones.
  obtain ⟨skipped, white, same, own⟩ : ∃ skipped : List Piece, (∀ p ∈ skipped, p.kind = .trivia) ∧
      pieces y = skipped ++ piecesAfter (runLength isSpace y) y ∧
      skipped.filterMap Piece.word? = [] := by
    cases y with
    | nil => exact ⟨[], by simp, rfl, rfl⟩
    | cons d y =>
        cases more : isSpace d with
        | false =>
            have none : runLength isSpace (d :: y) = 0 := by simp [runLength, more]
            exact ⟨[], by simp, by rw [none]; rfl, rfl⟩
        | true =>
            have run : runLength isSpace (d :: y) = runLength isSpace y + 1 := by simp [runLength, more]
            refine ⟨[⟨.trivia, d :: y.take (runLength isSpace y)⟩], by simp, ?_, rfl⟩
            rw [run, pieces, piecesAfter_cons, first_eq, start_space.2 more]
            rfl
  constructor
  · rw [words_eq, words_eq, whole, cut, same, List.filterMap_append, own]
    rfl
  · intro h
    rw [faultless_iff, same] at h
    rw [faultless_iff, whole, cut]
    intro p member
    rcases List.mem_cons.1 member with rfl | member
    · exact .inl rfl
    · exact h p (List.mem_append.2 (.inr member))

theorem words_spaces (spaces : ∀ c ∈ x, isSpace c = true) (y : Source) :
    words (x ++ y) = words y ∧ (Faultless y → Faultless (x ++ y)) := by
  induction x with
  | nil => exact ⟨rfl, id⟩
  | cons c x ih =>
      obtain ⟨same, sound⟩ := ih fun d member => spaces d (List.mem_cons_of_mem c member)
      have own := divides_space (spaces c List.mem_cons_self) (x ++ y)
      exact ⟨own.words.trans same, fun h => own.faultless (sound h)⟩

/-- Behind white space the text may go on in any way. -/
theorem cuts_head (sound : ∀ p ∈ ps, p.Sound) (space : isSpace c = true) (cuts : Cuts ps (c :: x))
    (y : Source) : Cuts ps (c :: y) := by
  rcases List.eq_nil_or_concat' ps with rfl | ⟨qs, p, rfl⟩
  · trivial
  · refine cuts_last (fun q member => sound q (List.mem_append_left _ member)) cuts ?_
    obtain ⟨d, ds, chars, found⟩ : p.Cut (c :: x) := (cuts_append.1 cuts).2.1
    refine ⟨d, ds, chars, ?_⟩
    refine first_congr (x := c :: x) (y := c :: y) (sound p (by simp)) (.inl rfl) (fun _ => .inl ?_) found
    rintro e head letter
    obtain rfl := Option.some.inj head
    have solid : ∀ d ∈ ['x', 'X', 'e', 'E'], isSpace d = false :=
      List.all_iff_forall_prop.1 (by decide)
    exact Bool.false_ne_true ((solid c letter).symm.trans space)

/-- White space and comments go on over a new line, or end before it. -/
theorem trivia_newline (h : first c (cs ++ x) = (.trivia, cs.length)) :
    (∀ d ∈ c :: cs, isSpace d = true) ∨ ∀ z, first c (cs ++ '\n' :: z) = (.trivia, cs.length) := by
  have kind := start_of_trivia h
  rw [first_eq] at h
  rcases kind with starts | starts | starts
  · left
    rw [starts] at h
    have run := (runLength_eq_iff.1 (congrArg Prod.snd h)).1
    intro d member
    rcases List.mem_cons.1 member with rfl | member
    · exact start_space.1 starts
    · exact run d member
  · right
    intro z
    rw [starts] at h
    have run := (runLength_eq_iff.1 (congrArg Prod.snd h)).1
    have ends : ∀ d ∈ ('\n' :: z).head?, (decide (d ≠ '\n')) = false := by
      intro d head
      obtain rfl := Option.some.inj head
      rfl
    cases cs with
    | nil =>
        have next := (runLength_eq_iff.1 (congrArg Prod.snd h)).2 '/' (start_comment.1 starts)
        cases next
    | cons d cs =>
        rw [first_eq, show start c (d :: cs ++ '\n' :: z).head? = .line from starts]
        exact Prod.ext rfl (runLength_eq_iff.2 ⟨run, ends⟩)
  · right
    intro z
    rw [starts] at h
    obtain ⟨-, star, found⟩ := block_congr (y := '\n' :: z) (.inl rfl) (start_block starts) h
    rw [first_eq, star, ← start_block starts, starts]
    exact found

/-- A new line goes on with no token. -/
theorem divides_newline (sound : ∀ p ∈ ps, p.Sound) (cuts : Cuts ps x) (z : Source) :
    Divides ps ('\n' :: z) := by
  rcases List.eq_nil_or_concat' ps with rfl | ⟨qs, p, rfl⟩
  · exact divides_nil _
  obtain ⟨c, cs, chars, found⟩ : p.Cut x := (cuts_append.1 cuts).2.1
  have ends : p.Cut ('\n' :: z) → Divides (qs ++ [p]) ('\n' :: z) := fun cut =>
    divides_of_cuts sound (cuts_last (fun q member => sound q (List.mem_append_left _ member)) cuts cut)
  have stop : ∀ d ∈ ('\n' :: z).head?, d ∈ stops := by
    intro d head
    obtain rfl := Option.some.inj head
    simp [stops]
  rcases sound p (by simp) with trivia | ⟨kind, token⟩
  · rw [trivia] at found
    rcases trivia_newline found with spaces | cut
    · have front : Cuts qs (c :: (cs ++ x)) := by
        simpa [chars] using (cuts_append.1 cuts).1
      have before := cuts_head (fun q member => sound q (List.mem_append_left _ member))
        (spaces c List.mem_cons_self) front (cs ++ '\n' :: z)
      refine Divides.append (divides_of_cuts (fun q member => sound q (List.mem_append_left _ member)) ?_) ?_
      · simpa [chars] using before
      · obtain ⟨kind, chars'⟩ := p
        cases trivia
        cases chars
        obtain ⟨same, faultless⟩ := words_spaces spaces ('\n' :: z)
        have none : [(⟨.trivia, c :: cs⟩ : Piece)].filterMap Piece.word? = [] := rfl
        exact ⟨by simpa [none] using same, by simpa using faultless⟩
    · exact ends ⟨c, cs, chars, trivia ▸ cut z⟩
  · refine ends ⟨c, cs, chars, ?_⟩
    rw [token] at found ⊢
    refine first_congr (.inr ⟨kind, rfl⟩) (.inr ⟨nofun, stop⟩) (fun _ => .inl ?_) found
    intro d head
    obtain rfl := Option.some.inj head
    decide

end Space

section Sealing

@[simp] theorem words_nil : words [] = [] := rfl

/-- Whatever follows the text, it has its own tokens and no fault. -/
structure Sealed (x : Source) : Prop where
  words : ∀ y, words (x ++ y) = Token.words x ++ Token.words y
  faultless : ∀ y, Faultless y → Faultless (x ++ y)

theorem sealed_of_divides (h : ∀ y, Divides ps y) : Sealed (ps.flatMap Piece.chars) where
  words y := by
    have alone := (h []).words
    rw [List.append_nil, words_nil, List.append_nil] at alone
    rw [alone, (h y).words]
  faultless y := (h y).faultless

theorem Sealed.spaces (h : Sealed x) (spaces : ∀ c ∈ y, isSpace c = true) : Sealed (x ++ y) where
  words z := by
    have alone := (words_spaces spaces []).1
    rw [List.append_nil] at alone
    rw [List.append_assoc, h.words, (words_spaces spaces z).1, h.words, alone, words_nil, List.append_nil]
  faultless z holds := by
    rw [List.append_assoc]
    exact h.faultless _ ((words_spaces spaces z).2 holds)

theorem sealed_of_lexes (h : ∀ y, Lexes ts y) : Sealed (textOf ts) := by
  rw [← flatMap_chars]
  exact sealed_of_divides fun y => divides_of_cuts (sound_pieces ts) (h y)

theorem Sealed.append (first : Sealed x) (second : Sealed y) : Sealed (x ++ y) where
  words z := by
    rw [List.append_assoc, first.words, second.words, first.words, List.append_assoc]
  faultless z h := by
    rw [List.append_assoc]
    exact first.faultless _ (second.faultless z h)

/-- A text without a fault up to a new line, behind which there is white space alone. -/
theorem sealed_of_newline (n : Nat) (faultless : Faultless (x.take n))
    (next : (x.drop n).head? = some '\n') (spaces : ∀ c ∈ x.drop n, isSpace c = true) : Sealed x := by
  obtain ⟨rest, same⟩ := List.head?_eq_some_iff.1 next
  have whole : x = (x.take n ++ ['\n']) ++ rest := by
    rw [List.append_assoc, List.singleton_append, ← same, List.take_append_drop]
  rw [whole]
  refine Sealed.spaces ?_ fun c member => spaces c (same ▸ List.mem_cons_of_mem _ member)
  have front := Token.flatMap_chars_pieces (x.take n)
  have divides : ∀ z, Divides (pieces (x.take n)) ('\n' :: z) :=
    divides_newline (faultless_iff.1 faultless) (cuts_pieces _)
  have line := divides_space (show isSpace '\n' = true by decide)
  have both : ∀ y, Divides (pieces (x.take n) ++ [⟨.trivia, ['\n']⟩]) y := fun y =>
    (divides y).append (line y)
  simpa [front] using sealed_of_divides both

/-- What a string literal spells has its own tokens if it is without a fault and ends with
a new line. -/
theorem sealed_line {s : String}
    (h : ∃ x, s = String.ofList x ∧ (scan (x.take (x.length - 1))).faults.isEmpty ∧
      x.drop (x.length - 1) = ['\n']) : Sealed s.toList := by
  obtain ⟨x, rfl, faultless, newline⟩ := h
  rw [String.toList_ofList]
  refine sealed_of_newline (x.length - 1) (List.isEmpty_iff.1 faultless) (by simp [newline]) ?_
  intro c member
  obtain rfl : c = '\n' := by simpa [newline] using member
  rfl

end Sealing

section Boundary

/-- Whether the tokens of a kind end with a character of a word. -/
def Kind.isWord : Kind → Bool
  | .keyword _ | .number | .identifier => true
  | .mark _ | .string => false

/-- What no slash starts is told by one character. -/
theorem start_quoted {next : Option Char} (h : start c next = .quote ∨ start c next = .word)
    (next' : Option Char) : start c next' = start c next := by
  by_cases slash : c = '/'
  · subst slash
    exfalso
    by_cases line : next = some '/'
    · subst line
      exact h.elim nofun nofun
    by_cases block : next = some '*'
    · subst block
      exact h.elim nofun nofun
    have mark : start '/' next = .mark := by
      unfold start
      rw [if_neg (by decide), if_neg fun both => line both.2, if_neg fun both => block both.2]
      rfl
    rw [mark] at h
    exact h.elim nofun nofun
  · unfold start
    simp [slash]

/-- A string that is closed ends there. -/
theorem first_string (h : first c (cs ++ x) = (.token .string, cs.length)) (y : Source) :
    first c (cs ++ y) = (.token .string, cs.length) := by
  have sound : PieceKind.token .string = .trivia ∨ ∃ kind, PieceKind.token .string = .token kind :=
    .inr ⟨_, rfl⟩
  have other : ∀ w, wordKind w ≠ .string := by
    intro w
    unfold wordKind
    cases Keyword.ofText? w <;> simp
  rw [first_eq] at h ⊢
  cases starts : start c (cs ++ x).head? with
  | quote =>
      rw [starts] at h
      rw [start_quoted (.inl starts) (cs ++ y).head?, starts]
      have extent : quotedExtent c (cs ++ x) = (cs.length, true) :=
        Prod.ext (congrArg Prod.snd h) (closed_of_quotedKind sound (congrArg Prod.fst h)).1
      rw [quotedExtent_append extent]
      rfl
  | word =>
      rw [starts] at h
      rw [start_quoted (.inr starts) (cs ++ y).head?, starts]
      refine Hexadecimal.congr sound ?_ h y
      by_contra plain
      have kind := congrArg Prod.fst ((wordAt_plain plain).symm.trans h)
      exact other _ (PieceKind.token.inj kind)
  | mark =>
      rw [starts] at h
      simp only [markAt] at h
      split at h <;> cases h
  | block =>
      rw [starts] at h
      simp only [blockAt] at h
      split at h <;> cases h
  | space | line | digit =>
      rw [starts] at h
      cases h

/-- What may follow a token in the place of other text. -/
theorem Piece.Cut.congr {kind : Kind} (h : (Piece.mk (.token kind) cs).Cut x)
    (head : y.head? = x.head? ∨ y.head? = some '(' ∨ ∀ d ∈ y.head?, isWordStart d = true)
    (apart : kind.isWord = true → ∀ d ∈ y.head?, isWordRest d = false) :
    (Piece.mk (.token kind) cs).Cut y := by
  obtain ⟨c, cs, chars, found⟩ := h
  refine ⟨c, cs, chars, ?_⟩
  have sound : PieceKind.token kind = .trivia ∨ ∃ k, PieceKind.token kind = .token k := .inr ⟨kind, rfl⟩
  have opens : y.head? = some '(' → ∀ d ∈ y.head?, d ∈ stops := by
    intro same d member
    obtain rfl := Option.some.inj (same.symm.trans member)
    simp [stops]
  have quiet : kind.isWord = true → Quiet x y := by
    intro word
    refine .inl fun d member letter => ?_
    have rest : ∀ d ∈ ['x', 'X', 'e', 'E'], isWordRest d = true :=
      List.all_iff_forall_prop.1 (by decide)
    exact Bool.false_ne_true ((apart word d member).symm.trans (rest d letter))
  have word : kind.isWord = true → first c (cs ++ y) = (.token kind, cs.length) := by
    intro word
    refine first_congr sound ?_ (fun _ => quiet word) found
    rcases head with same | same | start
    · exact .inl same
    · exact .inr ⟨by simp, opens same⟩
    · refine .inr ⟨by simp, fun d member => ?_⟩
      have rest : isWordRest d = true := by simp [isWordRest, start d member]
      exact absurd (apart word d member) (by simp [rest])
  cases kind with
  | keyword | number | identifier => exact word rfl
  | string => exact first_string found y
  | mark m =>
      rcases head with same | same | start
      · exact first_congr sound (.inl same) (by simp) found
      · exact first_congr sound (.inr ⟨by simp, opens same⟩) (by simp) found
      · exact first_mark_congr start found

end Boundary

end SafeSubset.Token
