import SafeSubset.Proofs.Token.Extent

/-! What the end of a piece depends on. Whether a text is cut behind a piece is
decided by the next character, and behind a number by the next two, so pieces
can be put before another text where that does not go on with the last one. -/
namespace SafeSubset.Token

variable {p : Char → Bool} {c : Char} {cs x y : Source} {k : PieceKind}

theorem isPrefix_of_longest {m : Mark} (h : Mark.longest? cs = some m) : m.text.toList <+: cs := by
  have found := List.find?_some h
  simpa using found

/-- No piece reaches beyond the text. -/
theorem first_le (c : Char) (cs : Source) : (first c cs).2 ≤ cs.length := by
  unfold first
  split
  · exact runLength_le _ _
  split
  · exact runLength_le _ _
  split
  · next block =>
    split
    · next n found =>
      have := (commentLength_bounds found).2
      obtain ⟨cs, rfl⟩ := List.head?_eq_some_iff.1 block.2
      simpa using this
    · exact Nat.le_refl _
  split
  · exact quotedExtent_le c cs
  split
  · exact numberLength_le c cs
  split
  · split
    · exact Nat.add_le_add_right (hexStringExtent_le _ _) 3
    · exact Nat.add_le_add_right (hexStringExtent_le _ _) 3
    · exact (List.takeWhile_sublist _).length_le
  · split
    · next m found =>
      have := (isPrefix_of_longest found).length_le
      simp only [String.length_toList, List.length_cons] at this
      simp only
      omega
    · exact Nat.zero_le _
/-- The piece is what is cut off where the text `after` follows it. -/
def Piece.Cut (p : Piece) (after : Source) : Prop :=
  ∃ c cs, p.chars = c :: cs ∧ first c (cs ++ after) = (p.kind, cs.length)

/-- Each of the pieces is cut off before the others and the text behind. -/
def Cuts : List Piece → Source → Prop
  | [], _ => True
  | p :: ps, after => p.Cut (ps.flatMap Piece.chars ++ after) ∧ Cuts ps after

variable {ps qs : List Piece} {after : Source}

theorem cuts_append :
    Cuts (ps ++ qs) after ↔ Cuts ps (qs.flatMap Piece.chars ++ after) ∧ Cuts qs after := by
  induction ps with
  | nil => simp [Cuts]
  | cons p ps ih => simp [Cuts, ih, and_assoc]

theorem piecesAfter_cons (c : Char) (cs : Source) :
    piecesAfter 0 (c :: cs) =
      ⟨(first c cs).1, c :: cs.take (first c cs).2⟩ :: piecesAfter (first c cs).2 cs := rfl

theorem cuts_piecesAfter (n : Nat) (cs : Source) : Cuts (piecesAfter n cs) [] := by
  induction cs generalizing n with
  | nil => cases n <;> trivial
  | cons c cs ih =>
      cases n with
      | succ n => exact ih n
      | zero =>
          rw [piecesAfter_cons]
          refine ⟨⟨c, cs.take (first c cs).2, rfl, ?_⟩, ih _⟩
          rw [chars_piecesAfter, List.append_nil, List.take_append_drop,
            List.length_take_of_le (first_le c cs)]

theorem cuts_pieces (cs : Source) : Cuts (pieces cs) [] := cuts_piecesAfter 0 cs

theorem piecesAfter_append (cs x : Source) : piecesAfter cs.length (cs ++ x) = piecesAfter 0 x := by
  induction cs with
  | nil => rfl
  | cons c cs ih => exact ih

/-- Pieces that are cut off one before the other are the first pieces of their text. -/
theorem pieces_append (h : Cuts ps x) : pieces (ps.flatMap Piece.chars ++ x) = ps ++ pieces x := by
  induction ps with
  | nil => rfl
  | cons p ps ih =>
      obtain ⟨⟨c, cs, chars, found⟩, rest⟩ := h
      have tail := ih rest
      obtain ⟨kind, chars⟩ := p
      subst chars
      rw [pieces] at tail ⊢
      simp only [List.flatMap_cons, List.append_assoc, List.cons_append, piecesAfter_cons, found,
        List.take_left, piecesAfter_append, tail]

theorem pieces_of_cuts (h : Cuts ps []) : pieces (ps.flatMap Piece.chars) = ps := by
  have whole := pieces_append h
  rwa [List.append_nil, show pieces [] = [] from rfl, List.append_nil] at whole

section Marks

theorem Mark.mem_all (m : Mark) : m ∈ Mark.all := by
  cases m <;> decide

theorem Mark.sorted : Mark.all.Pairwise fun a b => b.text.toList.length ≤ a.text.toList.length := by
  decide +kernel

/-- The beginnings of a mark are marks. -/
theorem Mark.beginning : ∀ m ∈ Mark.all, ∀ n ≤ m.text.toList.length, 0 < n →
    ∃ k ∈ Mark.all, k.text.toList = m.text.toList.take n := by
  decide +kernel

/-- The characters of marks behind their first ones. -/
def Mark.inner : List Char := Mark.all.flatMap fun m => m.text.toList.tail

theorem Mark.text_ne_nil (m : Mark) : m.text.toList ≠ [] := by
  cases m <;> decide

/-- The longest mark stays so before a text that goes on with none. -/
theorem longest_congr {m : Mark} (h : Mark.longest? (m.text.toList ++ x) = some m)
    (next : y.head? = x.head? ∨ ∀ c ∈ y.head?, c ∉ Mark.inner) :
    Mark.longest? (m.text.toList ++ y) = some m := by
  obtain ⟨-, as, bs, split, before⟩ := List.find?_eq_some_iff_append.1 h
  have sorted := Mark.sorted
  rw [split, List.pairwise_append] at sorted
  obtain ⟨-, behind, apart⟩ := sorted
  refine List.find?_eq_some_iff_append.2 ⟨by simp, as, bs, split, fun a earlier => ?_⟩
  have longer := apart a earlier m List.mem_cons_self
  have missing := before a earlier
  simp only [Bool.not_eq_true', ← Bool.not_eq_true, List.isPrefixOf_iff_prefix] at missing ⊢
  intro here
  obtain ⟨z, same⟩ := List.prefix_of_prefix_length_le (List.prefix_append _ y) here longer
  cases z with
  | nil =>
      rw [List.append_nil] at same
      exact missing (same ▸ List.prefix_append _ x)
  | cons d z =>
      rw [← same, List.prefix_append_right_inj] at here
      obtain ⟨w, rfl⟩ := here
      obtain ⟨e, es, first⟩ := List.exists_cons_of_ne_nil m.text_ne_nil
      rcases next with next | next
      · -- The mark that ends with the next character is longer, and would have been found before.
        obtain ⟨x, rfl⟩ := List.head?_eq_some_iff.1 next.symm
        obtain ⟨k, -, begins⟩ := Mark.beginning a a.mem_all (m.text.toList.length + 1)
          (by rw [← same]; simp) (Nat.succ_pos _)
        have begins : k.text.toList = m.text.toList ++ [d] := by
          rw [begins, ← same, List.take_length_add_append]
          rfl
        have found : k.text.toList <+: m.text.toList ++ d :: x := ⟨x, by simp [begins]⟩
        have longer : m.text.toList.length < k.text.toList.length := by simp [begins]
        have member := split ▸ k.mem_all
        rcases List.mem_append.1 member with member | member
        · have missing := before k member
          simp only [Bool.not_eq_true', ← Bool.not_eq_true, List.isPrefixOf_iff_prefix] at missing
          exact missing found
        · rcases List.mem_cons.1 member with rfl | member
          · omega
          · have := (List.pairwise_cons.1 behind).1 k member
            omega
      · refine next d rfl (List.mem_flatMap.2 ⟨a, a.mem_all, ?_⟩)
        simp [← same, first]

end Marks

section Words

/-- What a character that starts a word starts. -/
def wordAt (c : Char) (cs : Source) : PieceKind × Nat :=
  match c, cs with
  | 'h', 'e' :: 'x' :: '"' :: rest =>
      (quotedKind (hexStringExtent '"' rest).2, (hexStringExtent '"' rest).1 + 3)
  | 'h', 'e' :: 'x' :: '\'' :: rest =>
      (quotedKind (hexStringExtent '\'' rest).2, (hexStringExtent '\'' rest).1 + 3)
  | _, _ => (.token (wordKind (String.ofList (c :: cs.takeWhile isWordRest))), runLength isWordRest cs)

def quotes : List Char := ['"', '\'']

theorem not_isHexDigit_of_quotes : ∀ q ∈ quotes, isHexDigit q = false ∧ q ≠ '_' :=
  List.all_iff_forall_prop.1 (by decide)

theorem not_isWordRest_of_quotes : ∀ q ∈ quotes, isWordRest q = false ∧ q ∉ stops :=
  List.all_iff_forall_prop.1 (by decide)

/-- A word before a quotation mark makes it a hexadecimal string. -/
def Hexadecimal (c : Char) (cs : Source) : Prop :=
  ∃ q ∈ quotes, ∃ rest, c = 'h' ∧ cs = 'e' :: 'x' :: q :: rest

theorem wordAt_plain (plain : ¬ Hexadecimal c cs) :
    wordAt c cs = (.token (wordKind (String.ofList (c :: cs.takeWhile isWordRest))),
      runLength isWordRest cs) := by
  unfold wordAt
  split
  · exact absurd ⟨'"', by decide, _, rfl, rfl⟩ plain
  · exact absurd ⟨'\'', by decide, _, rfl, rfl⟩ plain
  · rfl

theorem wordAt_hexadecimal {q : Char} (quote : q ∈ quotes) (rest : Source) :
    wordAt 'h' ('e' :: 'x' :: q :: rest) =
      (quotedKind (hexStringExtent q rest).2, (hexStringExtent q rest).1 + 3) := by
  rcases List.mem_cons.1 quote with rfl | quote
  · rfl
  · cases List.mem_singleton.1 quote
    rfl

theorem takeWhile_of_run (h : runLength p (cs ++ x) = cs.length) : (cs ++ x).takeWhile p = cs :=
  (List.append_inj ((List.takeWhile_append_dropWhile (p := p)).trans rfl) h).1

theorem closed_of_quotedKind (sound : k = .trivia ∨ ∃ kind, k = .token kind)
    {closed : Bool} (h : quotedKind closed = k) : closed = true ∧ k = .token .string := by
  subst h
  cases closed with
  | true => exact ⟨rfl, rfl⟩
  | false => rcases sound with same | ⟨_, same⟩ <;> cases same

theorem Hexadecimal.congr (sound : k = .trivia ∨ ∃ kind, k = .token kind)
    (hexadecimal : Hexadecimal c (cs ++ x)) (h : wordAt c (cs ++ x) = (k, cs.length)) (y : Source) :
    wordAt c (cs ++ y) = (k, cs.length) := by
  obtain ⟨q, quote, rest, rfl, same⟩ := hexadecimal
  rw [same, wordAt_hexadecimal quote] at h
  obtain ⟨kind, length⟩ := Prod.mk.inj h
  obtain ⟨closed, rfl⟩ := closed_of_quotedKind sound kind
  obtain ⟨ds, rfl, rfl⟩ : ∃ ds, cs = 'e' :: 'x' :: q :: ds ∧ rest = ds ++ x := by
    match cs, same with
    | a :: b :: d :: ds, same =>
        cases same
        exact ⟨ds, rfl, rfl⟩
    | [], _ | [_], _ | [_, _], _ => simp at length
  have extent := hexStringExtent_append (y := y) (not_isHexDigit_of_quotes q quote)
    (Prod.ext (Nat.add_right_cancel length) closed)
  rw [List.cons_append, List.cons_append, List.cons_append, wordAt_hexadecimal quote, extent]
  rfl

theorem word_congr (sound : k = .trivia ∨ ∃ kind, k = .token kind) (like : Like x y)
    (h : wordAt c (cs ++ x) = (k, cs.length)) : wordAt c (cs ++ y) = (k, cs.length) := by
  by_cases plain : Hexadecimal c (cs ++ x)
  · exact plain.congr sound h y
  rw [wordAt_plain plain] at h
  obtain ⟨kind, run⟩ := Prod.mk.inj h
  have run' := runLength_congr run (like.ends not_isWordRest_of_stops (runLength_eq_iff.1 run).2)
  have plain' : ¬ Hexadecimal c (cs ++ y) := by
    rintro ⟨q, quote, rest, rfl, same⟩
    obtain ⟨other, stop⟩ := not_isWordRest_of_quotes q quote
    have letters : runLength isWordRest (['e', 'x'] ++ q :: rest) = ['e', 'x'].length :=
      runLength_eq_iff.2 ⟨List.all_iff_forall_prop.1 (by decide), fun d head => Option.some.inj head ▸ other⟩
    rw [same] at run'
    obtain ⟨rfl, rfl⟩ := List.append_inj (same.trans (show _ = ['e', 'x'] ++ q :: rest from rfl))
      (run'.symm.trans letters)
    rcases like with like | like
    · obtain ⟨x, rfl⟩ := List.head?_eq_some_iff.1 like.symm
      exact plain ⟨q, quote, x, rfl, rfl⟩
    · exact stop (like q rfl)
  rw [wordAt_plain plain', run', takeWhile_of_run run', ← kind, takeWhile_of_run run]

end Words

section Pieces

/-- What the first two characters say about a piece. -/
inductive Start where
  | space | line | block | quote | digit | word | mark
  deriving DecidableEq

def start (c : Char) (next : Option Char) : Start :=
  if isSpace c then .space
  else if c = '/' ∧ next = some '/' then .line
  else if c = '/' ∧ next = some '*' then .block
  else if c = '"' ∨ c = '\'' then .quote
  else if isDigit c then .digit
  else if isWordStart c then .word
  else .mark

/-- What a block comment starts. -/
def blockAt (cs : Source) : PieceKind × Nat :=
  match commentLength? cs.tail with
  | some n => (.trivia, n + 1)
  | none => (.unclosedComment, cs.length)

/-- What a character that starts a mark starts. -/
def markAt (c : Char) (cs : Source) : PieceKind × Nat :=
  match Mark.longest? (c :: cs) with
  | some m => (.token (.mark m), m.text.length - 1)
  | none => (.unexpected, 0)

theorem first_eq (c : Char) (cs : Source) :
    first c cs =
      match start c cs.head? with
      | .space => (.trivia, runLength isSpace cs)
      | .line => (.trivia, runLength (· ≠ '\n') cs)
      | .block => blockAt cs
      | .quote => (quotedKind (quotedExtent c cs).2, (quotedExtent c cs).1)
      | .digit => (.token .number, numberLength c cs)
      | .word => wordAt c cs
      | .mark => markAt c cs := by
  unfold first start
  by_cases space : isSpace c = true
  · rw [if_pos space, if_pos space]
  rw [if_neg space, if_neg space]
  by_cases line : c = '/' ∧ cs.head? = some '/'
  · rw [if_pos line, if_pos line]
  rw [if_neg line, if_neg line]
  by_cases block : c = '/' ∧ cs.head? = some '*'
  · rw [if_pos block, if_pos block]
    rfl
  rw [if_neg block, if_neg block]
  by_cases quote : c = '"' ∨ c = '\''
  · rw [if_pos quote, if_pos quote]
  rw [if_neg quote, if_neg quote]
  by_cases digit : isDigit c = true
  · rw [if_pos digit, if_pos digit]
  rw [if_neg digit, if_neg digit]
  by_cases word : isWordStart c = true
  · rw [if_pos word, if_pos word]
    rfl
  · rw [if_neg word, if_neg word]
    rfl

theorem start_congr {next next' : Option Char} (line : start c next ≠ .line)
    (block : start c next ≠ .block) (other : ∀ d ∈ next', d ≠ '/' ∧ d ≠ '*') :
    start c next' = start c next := by
  unfold start at line block ⊢
  by_cases space : isSpace c = true
  · rw [if_pos space, if_pos space]
  rw [if_neg space] at line block ⊢
  have noLine : ¬(c = '/' ∧ next = some '/') := fun h => line (if_pos h)
  rw [if_neg noLine] at block ⊢
  have noBlock : ¬(c = '/' ∧ next = some '*') := fun h => block (if_pos h)
  rw [if_neg space, if_neg noBlock, if_neg fun h => (other _ h.2).1 rfl,
    if_neg fun h => (other _ h.2).2 rfl]

/-- The longest mark at the front has the length of its text. -/
theorem text_of_longest {m : Mark} (found : Mark.longest? (c :: (cs ++ x)) = some m)
    (length : m.text.length - 1 = cs.length) : m.text.toList = c :: cs := by
  have begins : m.text.toList <+: c :: cs ++ x := isPrefix_of_longest found
  have some := List.length_pos_iff.2 m.text_ne_nil
  obtain ⟨z, same⟩ := begins
  refine (List.append_inj same ?_).1
  rw [String.length_toList] at some ⊢
  rw [List.length_cons]
  omega

theorem mark_congr (sound : k = .trivia ∨ ∃ kind, k = .token kind)
    (next : y.head? = x.head? ∨ ∀ c ∈ y.head?, c ∉ Mark.inner)
    (h : markAt c (cs ++ x) = (k, cs.length)) : markAt c (cs ++ y) = (k, cs.length) := by
  unfold markAt at h ⊢
  cases found : Mark.longest? (c :: (cs ++ x)) with
  | none =>
      rw [found] at h
      rcases sound with rfl | ⟨_, rfl⟩ <;> cases h
  | some m =>
      rw [found] at h
      obtain ⟨kind, length⟩ := Prod.mk.inj h
      have text := text_of_longest found length
      rw [← List.cons_append, ← text, longest_congr (by rwa [text]) next]
      exact h

theorem block_congr (sound : k = .trivia ∨ ∃ kind, k = .token kind) (star : (cs ++ x).head? = some '*')
    (h : blockAt (cs ++ x) = (k, cs.length)) :
    k = .trivia ∧ (cs ++ y).head? = some '*' ∧ blockAt (cs ++ y) = (k, cs.length) := by
  unfold blockAt at h ⊢
  cases found : commentLength? (cs ++ x).tail with
  | none =>
      rw [found] at h
      rcases sound with rfl | ⟨_, rfl⟩ <;> cases h
  | some n =>
      rw [found] at h
      obtain ⟨rfl, length⟩ := Prod.mk.inj h
      cases cs with
      | nil => cases length
      | cons d ds =>
          obtain rfl := Nat.succ.inj length
          refine ⟨rfl, star, ?_⟩
          rw [List.cons_append, List.tail_cons, commentLength_append found]
          rfl

theorem not_mem_inner_of_stops : ∀ d ∈ stops, d ≠ '/' ∧ d ≠ '*' ∧ d ∉ Mark.inner :=
  List.all_iff_forall_prop.1 (by decide)

theorem not_isWordStart_of_inner : ∀ d ∈ Mark.inner, isWordStart d = false :=
  List.all_iff_forall_prop.1 (by decide)

theorem start_comment {next : Option Char} :
    (start c next = .line → next = some '/') ∧ (start c next = .block → next = some '*') := by
  unfold start
  by_cases space : isSpace c = true
  · rw [if_pos space]
    exact ⟨nofun, nofun⟩
  rw [if_neg space]
  by_cases line : c = '/' ∧ next = some '/'
  · rw [if_pos line]
    exact ⟨fun _ => line.2, nofun⟩
  rw [if_neg line]
  by_cases block : c = '/' ∧ next = some '*'
  · rw [if_pos block]
    exact ⟨nofun, fun _ => block.2⟩
  rw [if_neg block]
  constructor <;>
  · intro h
    split at h
    · cases h
    split at h
    · cases h
    split at h <;> cases h

theorem start_block (h : start c cs.head? = .block) : cs.head? = some '*' := start_comment.2 h

/-- A piece starts before the other text as it starts before the first one. -/
theorem start_same (sound : k = .trivia ∨ ∃ kind, k = .token kind)
    (like : y.head? = x.head? ∨ k ≠ .trivia ∧ ∀ d ∈ y.head?, d ∈ stops)
    (h : first c (cs ++ x) = (k, cs.length)) : start c (cs ++ y).head? = start c (cs ++ x).head? := by
  cases cs with
  | cons => rfl
  | nil =>
      rcases like with same | ⟨token, stop⟩
      · simp [same]
      · rw [first_eq] at h
        refine start_congr (fun line => ?_) (fun block => ?_) fun d head =>
          ⟨(not_mem_inner_of_stops d (stop d head)).1, (not_mem_inner_of_stops d (stop d head)).2.1⟩
        · rw [line] at h
          exact token (congrArg Prod.fst h).symm
        · rw [block] at h
          exact token (block_congr (y := y) sound (start_block block) h).1

/-- A piece is cut off before another text as before the first, where the other
one goes on with it no more. -/
theorem first_congr (sound : k = .trivia ∨ ∃ kind, k = .token kind)
    (like : y.head? = x.head? ∨ k ≠ .trivia ∧ ∀ d ∈ y.head?, d ∈ stops)
    (quiet : k = .token .number → Quiet x y) (h : first c (cs ++ x) = (k, cs.length)) :
    first c (cs ++ y) = (k, cs.length) := by
  have similar : Like x y := like.imp_right And.right
  have same := start_same sound like h
  -- White space comes before texts only that start alike.
  have space : k = .trivia → ∀ p : Char → Bool, runLength p (cs ++ x) = cs.length →
      runLength p (cs ++ y) = cs.length := by
    intro trivia p run
    have same := like.resolve_right fun h => h.1 trivia
    exact runLength_congr run fun d head => (runLength_eq_iff.1 run).2 d (same ▸ head)
  rw [first_eq] at h ⊢
  rw [same]
  cases starts : start c (cs ++ x).head? with
  | space =>
      rw [starts] at h
      obtain ⟨kind, run⟩ := Prod.mk.inj h
      exact Prod.ext kind (space kind.symm _ run)
  | line =>
      rw [starts] at h
      obtain ⟨kind, run⟩ := Prod.mk.inj h
      exact Prod.ext kind (space kind.symm _ run)
  | block =>
      rw [starts] at h
      exact (block_congr sound (start_block starts) h).2.2
  | quote =>
      rw [starts] at h
      obtain ⟨kind, length⟩ := Prod.mk.inj h
      obtain ⟨closed, rfl⟩ := closed_of_quotedKind sound kind
      have extent : quotedExtent c (cs ++ x) = (cs.length, true) := Prod.ext length closed
      rw [quotedExtent_append extent]
      rfl
  | digit =>
      rw [starts] at h
      obtain ⟨rfl, length⟩ := Prod.mk.inj h
      exact Prod.ext rfl (numberLength_congr similar (quiet rfl) length)
  | word =>
      rw [starts] at h
      exact word_congr sound similar h
  | mark =>
      rw [starts] at h
      exact mark_congr sound (similar.imp_right fun stop d head =>
        (not_mem_inner_of_stops d (stop d head)).2.2) h

theorem wordAt_ne_mark (m : Mark) (n : Nat) : wordAt c cs ≠ (.token (.mark m), n) := by
  have quoted : ∀ closed, quotedKind closed ≠ .token (.mark m) := by
    intro closed
    cases closed <;> simp [quotedKind]
  have word : ∀ w, wordKind w ≠ .mark m := by
    intro w
    unfold wordKind
    cases Keyword.ofText? w <;> simp
  unfold wordAt
  split
  · exact fun h => quoted _ (congrArg Prod.fst h)
  · exact fun h => quoted _ (congrArg Prod.fst h)
  · exact fun h => word _ (PieceKind.token.inj (congrArg Prod.fst h))

theorem quotedKind_ne (comment : k = .trivia ∨ k = .unclosedComment) (closed : Bool) :
    quotedKind closed ≠ k := by
  rcases comment with rfl | rfl <;> cases closed <;> simp [quotedKind]

theorem wordAt_ne_comment (comment : k = .trivia ∨ k = .unclosedComment) (n : Nat) :
    wordAt c cs ≠ (k, n) := by
  unfold wordAt
  split
  · exact fun h => quotedKind_ne comment _ (congrArg Prod.fst h)
  · exact fun h => quotedKind_ne comment _ (congrArg Prod.fst h)
  · rcases comment with rfl | rfl <;> exact fun h => by cases h

theorem start_of_mark {m : Mark} {n : Nat} (h : first c cs = (.token (.mark m), n)) :
    start c cs.head? = .mark := by
  rw [first_eq] at h
  cases starts : start c cs.head? with
  | mark => rfl
  | space | line | digit =>
      rw [starts] at h
      cases h
  | block =>
      rw [starts] at h
      simp only [blockAt] at h
      split at h <;> cases h
  | quote =>
      rw [starts] at h
      cases (closed_of_quotedKind (.inr ⟨_, rfl⟩) (congrArg Prod.fst h)).2
  | word =>
      rw [starts] at h
      exact absurd h (wordAt_ne_mark m n)

/-- A mark is cut off as it is spelled. -/
theorem text_of_mark {m : Mark} (h : first c (cs ++ x) = (.token (.mark m), cs.length)) :
    m.text.toList = c :: cs := by
  have starts := start_of_mark h
  rw [first_eq, starts] at h
  simp only [markAt] at h
  split at h
  · next m' found =>
    obtain ⟨kind, length⟩ := Prod.mk.inj h
    cases kind
    exact text_of_longest found length
  · cases h

/-- A mark is cut off before a word. -/
theorem first_mark_congr {m : Mark} (word : ∀ d ∈ y.head?, isWordStart d = true)
    (h : first c (cs ++ x) = (.token (.mark m), cs.length)) :
    first c (cs ++ y) = (.token (.mark m), cs.length) := by
  have starts := start_of_mark h
  have other : ∀ d, isWordStart d = false → ∀ e ∈ y.head?, e ≠ d := by
    rintro _ none e head rfl
    simp [word e head] at none
  have same : start c (cs ++ y).head? = .mark := by
    cases cs with
    | cons => exact starts
    | nil =>
        rw [← starts]
        refine start_congr ?_ ?_ fun d head => ⟨other '/' rfl d head, other '*' rfl d head⟩
        · simp [show start c x.head? = .mark from starts]
        · simp [show start c x.head? = .mark from starts]
  rw [first_eq, starts] at h
  rw [first_eq, same]
  refine mark_congr (.inr ⟨_, rfl⟩) (.inr fun d head inside => ?_) h
  simpa [word d head] using not_isWordStart_of_inner d inside

theorem start_space {next : Option Char} : start c next = .space ↔ isSpace c = true := by
  unfold start
  constructor
  · intro h
    by_contra space
    rw [if_neg space] at h
    split at h
    · cases h
    split at h
    · cases h
    split at h
    · cases h
    split at h
    · cases h
    split at h <;> cases h
  · exact fun space => if_pos space

theorem start_of_trivia {n : Nat} (h : first c cs = (.trivia, n)) :
    start c cs.head? = .space ∨ start c cs.head? = .line ∨ start c cs.head? = .block := by
  rw [first_eq] at h
  cases starts : start c cs.head? with
  | space => exact .inl rfl
  | line => exact .inr (.inl rfl)
  | block => exact .inr (.inr rfl)
  | digit =>
      rw [starts] at h
      cases h
  | quote =>
      rw [starts] at h
      cases (closed_of_quotedKind (.inl rfl) (congrArg Prod.fst h)).2
  | word =>
      rw [starts] at h
      exact absurd h (wordAt_ne_comment (.inl rfl) _)
  | mark =>
      rw [starts] at h
      simp only [markAt] at h
      split at h <;> cases h

/-- A character that goes on with a word starts a number or a word. -/
theorem start_of_isWordRest (word : isWordRest c = true) (next : Option Char) :
    start c next = .digit ∨ start c next = .word := by
  have other : ∀ d : Char, isWordRest d = false → c ≠ d := by
    rintro d none rfl
    exact Bool.false_ne_true (none.symm.trans word)
  have space : ¬ isSpace c = true := by
    simp [isSpace, other ' ' rfl, other '\t' rfl, other '\r' rfl, other '\n' rfl, other '\x0c' rfl]
  unfold start
  rw [if_neg space, if_neg fun h => other '/' rfl h.1, if_neg fun h => other '/' rfl h.1,
    if_neg fun h => h.elim (other '"' rfl) (other '\'' rfl)]
  by_cases digit : isDigit c = true
  · exact .inl (if_pos digit)
  · have letter : isWordStart c = true := by simpa [isWordRest, digit] using word
    rw [if_neg digit, if_pos letter]
    exact .inr rfl

theorem not_isWordRest_of_trivia {n : Nat} (h : first c cs = (.trivia, n)) : isWordRest c = false := by
  rw [Bool.eq_false_iff]
  intro word
  rcases start_of_isWordRest word cs.head? with starts | starts <;>
    rcases start_of_trivia h with other | other | other <;> cases starts.symm.trans other

theorem not_isWordRest_of_mark {m : Mark} {n : Nat} (h : first c cs = (.token (.mark m), n)) :
    isWordRest c = false := by
  rw [Bool.eq_false_iff]
  intro word
  rcases start_of_isWordRest word cs.head? with starts | starts <;>
    cases starts.symm.trans (start_of_mark h)

/-- Trivia before something that is no white space end there, whatever it is. -/
theorem first_trivia_congr {d : Char} (here : x.head? = some d) (solid : isSpace d = false)
    (other : ∀ d ∈ y.head?, isSpace d = false) (h : first c (cs ++ x) = (.trivia, cs.length)) :
    first c (cs ++ y) = (.trivia, cs.length) := by
  have kind := start_of_trivia h
  rw [first_eq] at h
  rcases kind with starts | starts | starts
  · rw [starts] at h
    rw [first_eq, start_space.2 (start_space.1 starts)]
    exact Prod.ext rfl (runLength_congr (congrArg Prod.snd h) other)
  · rw [starts] at h
    have ends := (runLength_eq_iff.1 (congrArg Prod.snd h)).2 d here
    obtain rfl : d = '\n' := by simpa using ends
    cases solid
  · rw [starts] at h
    obtain ⟨-, star, found⟩ := block_congr (y := y) (.inl rfl) (start_block starts) h
    rw [first_eq, star, ← start_block starts, starts]
    exact found

end Pieces

/-- Behind a letter of a number, a piece of one letter ends before what is no part
of a word. -/
theorem letter_ends (letter : c ∈ ['x', 'X', 'e', 'E']) (h : first c y = (k, 0)) :
    ∀ d ∈ y.head?, isWordRest d = false := by
  have word : ∀ c ∈ ['x', 'X', 'e', 'E'], ∀ next, start c next = .word ∧ c ≠ 'h' := by
    intro c member next
    simp only [List.mem_cons, List.not_mem_nil, or_false] at member
    rcases member with rfl | rfl | rfl | rfl <;> exact ⟨rfl, by decide⟩
  obtain ⟨starts, other⟩ := word c letter y.head?
  rw [first_eq, starts] at h
  have plain : ¬ Hexadecimal c y := fun ⟨_, _, _, same, _⟩ => other same
  have run := congrArg Prod.snd ((wordAt_plain plain).symm.trans h)
  exact runLength_eq_zero.1 run

/-- What follows some pieces matters to the last one alone. -/
theorem cuts_last {p : Piece} (sound : ∀ q ∈ ps, q.Sound) (h : Cuts (ps ++ [p]) x)
    (last : p.Cut y) : Cuts (ps ++ [p]) y := by
  induction ps with
  | nil => exact ⟨by simpa using last, trivial⟩
  | cons q ps ih =>
      rw [List.cons_append] at h ⊢
      obtain ⟨⟨c, cs, chars, found⟩, rest⟩ := h
      have rest' := ih (fun r hr => sound r (List.mem_cons_of_mem _ hr)) rest
      refine ⟨⟨c, cs, chars, ?_⟩, rest'⟩
      obtain ⟨d, ds, text, next⟩ : ∃ d ds, (ps ++ [p]).flatMap Piece.chars = d :: ds ∧
          (ds = [] → first d y = (p.kind, 0)) := by
        cases ps with
        | nil =>
            obtain ⟨d, ds, text, first⟩ := last
            refine ⟨d, ds, by simp [text], ?_⟩
            rintro rfl
            exact first
        | cons r ps =>
            obtain ⟨⟨d, ds, text, -⟩, -⟩ := rest
            obtain ⟨e, es, text', -⟩ := last
            refine ⟨d, _, by simp [text]; rfl, fun none => ?_⟩
            simp [text'] at none
      rw [text] at found ⊢
      refine first_congr (x := d :: ds ++ x) (sound q List.mem_cons_self) (.inl rfl) (fun _ => ?_) found
      cases ds with
      | cons e es => exact .inr (.inl rfl)
      | nil =>
          by_cases letter : d ∈ ['x', 'X', 'e', 'E']
          · exact .inr (.inr (letter_ends letter (next rfl)))
          · exact .inl fun e head => Option.some.inj head ▸ letter

end SafeSubset.Token
