import SafeSubset.Proofs.Token.Divides
import SafeSubset.Proofs.Token.Pattern

/-! The comments of a text. They are found by looking for comments and quotations alone, so it
makes no difference for them with what a word or white space grows together. In a text without a
fault they are the pieces that are comments. -/
namespace SafeSubset.Token

variable {c : Char} {cs x y : Source} {k : Kind} {p : Piece} {ps : List Piece}

/-- Whether a comment starts with `c`, and the number of characters of `cs` that belong to the
comment or the quotation that does. -/
def passed (c : Char) (cs : Source) : Bool × Nat :=
  match start c cs.head? with
  | .line => (true, runLength (· ≠ '\n') cs)
  | .block =>
      match commentLength? cs.tail with
      | some n => (true, n + 1)
      | none => (false, cs.length)
  | .quote => (false, (quotedExtent c cs).1)
  | .space | .digit | .word | .mark => (false, 0)

/-- The comments of a text of which the first `skip` characters have been passed. -/
def commentsAfter : (skip : Nat) → Source → List Source
  | _, [] => []
  | skip + 1, _ :: cs => commentsAfter skip cs
  | 0, c :: cs =>
      let (comment, n) := passed c cs
      (if comment then [c :: cs.take n] else []) ++ commentsAfter n cs

def comments (text : Source) : List Source := commentsAfter 0 text

/-- The text of a piece that is a comment. -/
def Piece.comment? : Piece → Option Source
  | ⟨.trivia, '/' :: cs⟩ => some ('/' :: cs)
  | _ => none

section Passing

@[simp] theorem comments_nil : comments [] = [] := rfl

theorem commentsAfter_append (cs y : Source) : commentsAfter cs.length (cs ++ y) = comments y := by
  induction cs with
  | nil => rfl
  | cons c cs ih => exact ih

theorem comments_passed {comment : Bool} (h : passed c (cs ++ y) = (comment, cs.length)) :
    comments (c :: (cs ++ y)) = (if comment then [c :: cs] else []) ++ comments y := by
  rw [comments, commentsAfter, h]
  simp only [List.take_left, commentsAfter_append]

theorem commentsAfter_cons (c : Char) (cs : Source) :
    commentsAfter 0 (c :: cs) =
      (if (passed c cs).1 then [c :: cs.take (passed c cs).2] else []) ++ commentsAfter (passed c cs).2 cs :=
  rfl

theorem infix_of_mem_commentsAfter {skip : Nat} (member : x ∈ commentsAfter skip cs) : x <:+: cs := by
  induction cs generalizing skip with
  | nil => cases skip <;> cases member
  | cons c cs ih =>
      have behind : ∀ n, x ∈ commentsAfter n cs → x <:+: c :: cs := fun n inside =>
        (ih inside).trans (List.suffix_cons c cs).isInfix
      cases skip with
      | succ skip => exact behind skip member
      | zero =>
          rw [commentsAfter_cons, List.mem_append] at member
          rcases member with own | later
          · split at own
            · obtain rfl := List.mem_singleton.1 own
              exact ((List.prefix_cons_inj c).2 (List.take_prefix _ cs)).isInfix
            · cases own
          · exact behind _ later

/-- Each comment stands in the text. -/
theorem infix_of_mem_comments (member : x ∈ comments cs) : x <:+: cs := infix_of_mem_commentsAfter member

/-- The characters that start comments and quotations. -/
def openings : List Char := ['/', '"', '\'']

theorem not_isWordRest_of_openings : ∀ d ∈ openings, isWordRest d = false ∧ isSpace d = false :=
  List.all_iff_forall_prop.1 (by decide)

theorem comments_plain (plain : ∀ d ∈ x, d ∉ openings) (y : Source) : comments (x ++ y) = comments y := by
  induction x with
  | nil => rfl
  | cons c x ih =>
      have other := plain c List.mem_cons_self
      have none : passed c ([] ++ (x ++ y)) = (false, ([] : Source).length) := by
        unfold passed
        cases starts : start c ([] ++ (x ++ y)).head? with
        | line | block =>
            obtain rfl : c = '/' := shows_of_start starts
            exact absurd List.mem_cons_self other
        | quote => exact absurd (List.mem_cons_of_mem _ (shows_of_start starts)) other
        | space | digit | word | mark => rfl
      refine (comments_passed none).trans ?_
      exact ih fun d member => plain d (List.mem_cons_of_mem c member)

theorem comments_word (word : ∀ d ∈ x, isWordRest d = true) (y : Source) :
    comments (x ++ y) = comments y :=
  comments_plain (fun d member opens =>
    Bool.false_ne_true ((not_isWordRest_of_openings d opens).1.symm.trans (word d member))) y

/-- A text before which a slash starts no comment. -/
def Mild (y : Source) : Prop := ∀ d ∈ y.head?, d ≠ '/' ∧ d ≠ '*'

theorem comments_slash (next : Mild y) : comments ('/' :: y) = comments y := by
  have none : passed '/' ([] ++ y) = (false, ([] : Source).length) := by
    have mark : start '/' y.head? = .mark := by
      unfold start
      rw [if_neg (by decide), if_neg fun both => (next _ both.2).1 rfl, if_neg fun both => (next _ both.2).2 rfl]
      rfl
    rw [passed, List.nil_append, mark]
    rfl
  exact comments_passed none

theorem comments_quoted {q : Char} (quote : q ∈ quotes) (body : Quoted q cs) (y : Source) :
    comments (q :: (cs ++ y)) = comments y := by
  have extent : passed q (cs ++ y) = (false, cs.length) := by
    rw [passed, start_quote quote, body.extent y]
  exact comments_passed extent

theorem quoted_of_digits {q : Char} (quote : q ∈ quotes) (digits : ∀ d ∈ cs, isHexDigit d ∨ d = '_') :
    Quoted q (cs ++ [q]) := by
  induction cs with
  | nil => exact .close
  | cons d cs ih =>
      have rest := ih fun e member => digits e (List.mem_cons_of_mem d member)
      have word : isWordRest d = true := by
        rcases digits d List.mem_cons_self with digit | rfl
        · exact isWordRest_of_isHexDigit digit
        · decide
      refine .plain ?_ ?_ ?_ rest
      · rintro rfl
        exact Bool.false_ne_true ((not_isWordRest_of_quotes d quote).1.symm.trans word)
      · rintro rfl
        cases word
      · rintro rfl
        cases word

end Passing

section Pieces

/-- Marks have no comments, the slash where what follows does not make one of it. -/
theorem comments_mark (m : Mark) (next : m.text.toList = ['/'] → Mild y) :
    comments (m.text.toList ++ y) = comments y := by
  have plain : ∀ m ∈ Mark.all, m.text.toList = ['/'] ∨ m.text.toList = ['/', '='] ∨
      m.text.toList.all (fun d => decide (d ∉ openings)) = true :=
    List.all_iff_forall_prop.1 (by decide +kernel)
  rcases plain m m.mem_all with slash | assign | plain
  · rw [slash]
    exact comments_slash (next slash)
  · rw [assign]
    have other : Mild ('=' :: y) := by
      intro d head
      obtain rfl := Option.some.inj head
      decide
    have equals : ∀ d ∈ ['='], d ∉ openings := List.all_iff_forall_prop.1 (by decide)
    exact (comments_slash other).trans (comments_plain equals y)
  · exact comments_plain (List.all_iff_forall_prop.1 plain) y

/-- Tokens have no comments. -/
theorem comments_of_spells (h : k.Spells x) (next : x = ['/'] → Mild y) :
    comments (x ++ y) = comments y := by
  have digit : ∀ {d}, isDigit d = true → isWordRest d = true := fun digit => by simp [isWordRest, digit]
  have letter : ∀ {d}, isWordStart d = true → isWordRest d = true := fun letter => by
    simp [isWordRest, letter]
  cases h with
  | keyword k =>
      obtain ⟨c, cs, text, first, rest⟩ := k.spelled
      rw [text]
      exact comments_word (List.forall_mem_cons.2 ⟨letter first, rest⟩) y
  | mark m => exact comments_mark m next
  | decimal first digits =>
      exact comments_word (List.forall_mem_cons.2 ⟨digit first, fun d member => digit (digits d member)⟩) y
  | @exponent c e d cs ds first digits own lead power =>
      refine comments_word ?_ y
      have exponent : isWordRest e = true := by rcases own with rfl | rfl <;> rfl
      simp only [List.mem_cons, List.mem_append]
      rintro a (rfl | member | rfl | rfl | member)
      · exact digit first
      · exact digit (digits a member)
      · exact exponent
      · exact digit lead
      · exact digit (power a member)
  | @hexadecimal e d ds own lead digits =>
      refine comments_word ?_ y
      have hexadecimal : isWordRest e = true := by rcases own with rfl | rfl <;> rfl
      simp only [List.mem_cons]
      rintro a (rfl | rfl | rfl | member)
      · rfl
      · exact hexadecimal
      · exact isWordRest_of_isHexDigit lead
      · exact isWordRest_of_isHexDigit (digits a member)
  | quoted quote body => exact comments_quoted quote body y
  | @hexString q ds quote digits =>
      have hex : ∀ d ∈ ['h', 'e', 'x'], d ∉ openings := List.all_iff_forall_prop.1 (by decide)
      exact (comments_plain hex _).trans (comments_quoted quote (quoted_of_digits quote digits) y)
  | identifier first rest => exact comments_word (List.forall_mem_cons.2 ⟨letter first, rest⟩) y

/-- White space has no comments. -/
theorem comments_of_space (white : ∀ d ∈ c :: cs, isSpace d = true) (y : Source) :
    comments (c :: (cs ++ y)) = (Piece.mk .trivia (c :: cs)).comment?.toList ++ comments y := by
  have plain : ∀ d ∈ c :: cs, d ∉ openings := fun d member opens =>
    Bool.false_ne_true ((not_isWordRest_of_openings d opens).2.symm.trans (white d member))
  have none : (Piece.mk .trivia (c :: cs)).comment? = none := by
    unfold Piece.comment?
    split
    · next same =>
      cases same
      exact absurd List.mem_cons_self (plain '/' List.mem_cons_self)
    · rfl
  rw [none]
  exact comments_plain plain y

/-- A comment that reaches to the end of its line is passed as a whole. -/
theorem passed_line (slash : (cs ++ x).head? = some '/')
    (run : runLength (· ≠ '\n') (cs ++ x) = cs.length)
    (next : ('/' :: cs).take 2 = ['/', '/'] → ∀ d ∈ y.head?, d = '\n') :
    passed '/' (cs ++ y) = (true, cs.length) := by
  cases cs with
  | nil => simpa [slash] using (runLength_eq_iff.1 run).2 '/' slash
  | cons d cs =>
      obtain rfl : d = '/' := Option.some.inj slash
      have ends := next rfl
      rw [passed, show start '/' ('/' :: cs ++ y).head? = .line from rfl]
      exact Prod.ext rfl (runLength_congr run fun e head => by simp [ends e head])

/-- So is a comment that has an end of its own. -/
theorem passed_block (star : (cs ++ y).head? = some '*')
    (found : blockAt (cs ++ y) = (.trivia, cs.length)) : passed '/' (cs ++ y) = (true, cs.length) := by
  rw [passed, star]
  unfold blockAt at found
  cases length : commentLength? (cs ++ y).tail with
  | none =>
      rw [length] at found
      cases found
  | some n =>
      rw [length] at found
      have extent : n + 1 = cs.length := congrArg Prod.snd found
      exact congrArg (Prod.mk true) extent

/-- White space has no comments, and a comment is one. -/
theorem comments_of_trivia (h : first c (cs ++ x) = (.trivia, cs.length))
    (next : (c :: cs).take 2 = ['/', '/'] → ∀ d ∈ y.head?, d = '\n') :
    comments (c :: (cs ++ y)) = (Piece.mk .trivia (c :: cs)).comment?.toList ++ comments y := by
  have kind := start_of_trivia h
  rw [first_eq] at h
  rcases kind with starts | starts | starts
  · rw [starts] at h
    exact comments_of_space (List.forall_mem_cons.2
      ⟨start_space.1 starts, (runLength_eq_iff.1 (congrArg Prod.snd h)).1⟩) y
  · obtain rfl : c = '/' := shows_of_start starts
    have slash := start_comment.1 starts
    rw [starts] at h
    exact comments_passed (passed_line slash (congrArg Prod.snd h) next)
  · obtain rfl : c = '/' := shows_of_start starts
    rw [starts] at h
    obtain ⟨-, star, found⟩ := block_congr (y := y) (.inl rfl) (start_block starts) h
    exact comments_passed (passed_block star found)

/-- A text may follow the piece that makes no comment of it and does not go on with one. -/
structure Piece.Ends (p : Piece) (y : Source) : Prop where
  line : p.chars.take 2 = ['/', '/'] → ∀ d ∈ y.head?, d = '\n'
  slash : p.chars = ['/'] → Mild y

theorem Piece.Ends.congr (h : p.Ends x) (same : y.head? = x.head?) : p.Ends y :=
  ⟨fun two => same ▸ h.line two, fun only d head => h.slash only d (same ▸ head)⟩

/-- Before a token only a slash is told by what follows it. -/
theorem Piece.Ends.of_solid {d : Char} (h : p.Ends (d :: x)) (solid : isSpace d = false) (next : Mild y) :
    p.Ends y := by
  refine ⟨fun two => ?_, fun _ => next⟩
  obtain rfl := h.line two d rfl
  cases solid

/-- Behind any piece the line may end. -/
theorem Piece.ends_newline (p : Piece) (y : Source) : p.Ends ('\n' :: y) := by
  refine ⟨fun _ d head => (Option.some.inj head).symm, fun _ d head => ?_⟩
  obtain rfl := Option.some.inj head
  decide

/-- The line of a comment does not end in it. -/
theorem not_mem_of_line (cut : p.Cut x) (two : p.chars.take 2 = ['/', '/']) :
    '\n' ∉ p.chars ∧ ∀ d ∈ x.head?, d = '\n' := by
  obtain ⟨c, cs, chars, found⟩ := cut
  rw [chars] at two ⊢
  obtain ⟨rfl, ds, rfl⟩ : c = '/' ∧ ∃ ds, cs = '/' :: ds := by
    cases cs with
    | nil => cases two
    | cons d ds => cases two; exact ⟨rfl, ds, rfl⟩
  have line : start '/' ('/' :: ds ++ x).head? = .line := rfl
  rw [first_eq, line] at found
  obtain ⟨run, ends⟩ := runLength_eq_iff.1 (congrArg Prod.snd found)
  refine ⟨fun member => ?_, by simpa using ends⟩
  rcases List.mem_cons.1 member with same | member
  · cases same
  · exact absurd rfl (of_decide_eq_true (run '\n' member))

theorem ends_of_cut (sound : p.Sound) (cut : p.Cut x) : p.Ends x := by
  refine ⟨fun two => (not_mem_of_line cut two).2, fun only d head => ?_⟩
  obtain ⟨c, cs, chars, found⟩ := cut
  obtain ⟨kind, _⟩ := p
  cases chars
  cases only
  obtain ⟨x, rfl⟩ := List.head?_eq_some_iff.1 head
  constructor
  · rintro rfl
    have line : start '/' ([] ++ '/' :: x).head? = .line := rfl
    rw [first_eq, line] at found
    cases (runLength_eq_iff.1 (congrArg Prod.snd found)).2 '/' rfl
  · rintro rfl
    have block : start '/' ([] ++ '*' :: x).head? = .block := rfl
    rw [first_eq, block] at found
    obtain ⟨rfl, -, again⟩ := block_congr (y := []) sound rfl found
    cases again

theorem comments_of_cut (sound : p.Sound) (cut : p.Cut x) (ends : p.Ends y) :
    comments (p.chars ++ y) = p.comment?.toList ++ comments y := by
  obtain ⟨c, cs, chars, found⟩ := cut
  obtain ⟨kind, _⟩ := p
  cases chars
  rcases sound with trivia | ⟨k, token⟩
  · cases trivia
    exact comments_of_trivia found ends.line
  · cases token
    exact comments_of_spells (spells_of_first found).1 ends.slash

/-- Before a text, the comments of some pieces are those among them. -/
theorem comments_of_cuts (sound : ∀ p ∈ ps, p.Sound) (cuts : Cuts ps x)
    (ends : ∀ p ∈ ps.getLast?, p.Ends y) :
    comments (ps.flatMap Piece.chars ++ y) = ps.filterMap Piece.comment? ++ comments y := by
  induction ps with
  | nil => rfl
  | cons p ps ih =>
      obtain ⟨own, rest⟩ := cuts
      have single := sound p List.mem_cons_self
      have inner : (∀ q ∈ ps.getLast?, q.Ends y) → _ :=
        ih (fun q member => sound q (List.mem_cons_of_mem p member)) rest
      have split : (p :: ps).filterMap Piece.comment? = p.comment?.toList ++ ps.filterMap Piece.comment? := by
        rw [List.filterMap_cons]
        cases p.comment? <;> rfl
      rw [List.flatMap_cons, List.append_assoc, split, List.append_assoc]
      cases ps with
      | nil => exact comments_of_cut single own (ends p rfl)
      | cons q ps =>
          obtain ⟨⟨d, ds, chars, -⟩, -⟩ := rest
          have apart : p.Ends ((q :: ps).flatMap Piece.chars ++ y) :=
            (ends_of_cut single own).congr (by simp [chars])
          rw [comments_of_cut single own apart, inner ends]

theorem ends_of_cuts (sound : ∀ p ∈ ps, p.Sound) (cuts : Cuts ps x) : ∀ p ∈ ps.getLast?, p.Ends x := by
  intro p own
  obtain ⟨qs, rfl⟩ := List.getLast?_eq_some_iff.1 own
  exact ends_of_cut (sound p (by simp)) (cuts_append.1 cuts).2.1

theorem comments_of_pieces (sound : ∀ p ∈ ps, p.Sound) (cuts : Cuts ps []) :
    comments (ps.flatMap Piece.chars) = ps.filterMap Piece.comment? := by
  simpa using comments_of_cuts sound cuts (ends_of_cuts sound cuts)

/-- The comments of a text without a fault are its pieces that are comments. -/
theorem comments_eq (faultless : Faultless x) : comments x = (pieces x).filterMap Piece.comment? := by
  have whole := comments_of_pieces (faultless_iff.1 faultless) (cuts_pieces x)
  rwa [flatMap_chars_pieces] at whole

end Pieces

section Wholes

/-- A text whose comments end in it. -/
def Whole (x : Source) : Prop := ∀ y, comments (x ++ y) = comments x ++ comments y

/-- What is cut into the same pieces whatever follows it. -/
theorem comments_of_lexes (lexes : ∀ y, Cuts ps y) (sound : ∀ p ∈ ps, p.Sound) :
    comments (ps.flatMap Piece.chars) = ps.filterMap Piece.comment? ∧ Whole (ps.flatMap Piece.chars) := by
  have alone := comments_of_pieces sound (lexes [])
  refine ⟨alone, fun y => ?_⟩
  rw [alone]
  exact comments_of_cuts sound (lexes y) (ends_of_cuts sound (lexes y))

theorem whole_of_plain (plain : ∀ d ∈ x, d ∉ openings) : Whole x := by
  intro y
  have none : comments x = [] := by simpa using comments_plain plain []
  rw [comments_plain plain y, none]
  rfl

/-- A text without a fault whose last character ends a line. -/
theorem whole_of_newline (faultless : Faultless x) (newline : x.getLast? = some '\n') : Whole x := by
  intro y
  have sound := faultless_iff.1 faultless
  have cuts := cuts_pieces x
  have whole := flatMap_chars_pieces x
  have last : ∀ p ∈ (pieces x).getLast?, p.Ends y := by
    intro p own
    obtain ⟨ps, split⟩ := List.getLast?_eq_some_iff.1 own
    rw [split] at cuts whole
    have ends : p.chars.getLast? = some '\n' := by
      obtain ⟨c, cs, chars, -⟩ := (cuts_append.1 cuts).2.1
      have some : p.chars ≠ [] := by simp [chars]
      rw [List.flatMap_append, List.flatMap_singleton] at whole
      rwa [← whole, List.getLast?_append_of_ne_nil _ some] at newline
    refine ⟨fun two => ?_, fun only => ?_⟩
    · exact absurd (List.mem_of_getLast? ends) (not_mem_of_line (cuts_append.1 cuts).2.1 two).1
    · rw [only] at ends
      cases ends
  have together := comments_of_cuts sound cuts last
  rwa [whole, ← comments_eq faultless] at together

end Wholes
end SafeSubset.Token
