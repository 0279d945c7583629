import SafeSubset.Proofs.Token.Boundary

/-! Tokens whose text is cut into them again. The last token and the text behind
decide together whether other text may follow, and a token may take the place of
the first one if what stands before it ends there as well. -/
namespace SafeSubset.Token

variable {ts us : List Spaced} {t t' : Spaced} {x y : Source} {c d : Char} {cs : Source} {n : Nat}

/-- The text of the tokens is cut into them where `after` follows it. -/
def Lexes (ts : List Spaced) (after : Source) : Prop := Cuts (ts.flatMap Spaced.pieces) after

/-- White space and comments that are cut off where `after` follows them. -/
def Parted (gap : List Source) (after : Source) : Prop := Cuts (gap.map (⟨.trivia, ·⟩)) after

def Spaced.piece (t : Spaced) : Piece := ⟨.token t.kind, t.chars⟩

/-- The tokens with other trivia before the first. -/
def regap (gap : List Source) : List Spaced → List Spaced
  | [] => []
  | t :: ts => { t with gap } :: ts

theorem regap_append (gap : List Source) {ts : List Spaced} (some : ts ≠ []) (us : List Spaced) :
    regap gap (ts ++ us) = regap gap ts ++ us := by
  cases ts with
  | nil => contradiction
  | cons t ts => rfl

theorem flatMap_chars (ts : List Spaced) :
    (ts.flatMap Spaced.pieces).flatMap Piece.chars = textOf ts := by
  rw [List.flatMap_assoc, show (fun t : Spaced => t.pieces.flatMap Piece.chars) = Spaced.text from
    funext chars_pieces]
  rfl

theorem lexes_append :
    Lexes (ts ++ us) y ↔ Lexes ts (textOf us ++ y) ∧ Lexes us y := by
  unfold Lexes
  rw [List.flatMap_append, cuts_append, flatMap_chars]

theorem lexes_cons :
    Lexes (t :: ts) y ↔
      Parted t.gap (t.chars ++ (textOf ts ++ y)) ∧ t.piece.Cut (textOf ts ++ y) ∧ Lexes ts y := by
  unfold Lexes Parted
  rw [List.flatMap_cons, cuts_append, flatMap_chars]
  simp only [Spaced.pieces]
  rw [cuts_append]
  simp [Cuts, Spaced.piece, and_assoc]

theorem sound_pieces (ts : List Spaced) : ∀ p ∈ ts.flatMap Spaced.pieces, p.Sound := by
  intro p member
  obtain ⟨t, -, member⟩ := List.mem_flatMap.1 member
  rcases List.mem_append.1 member with member | member
  · obtain ⟨s, -, rfl⟩ := List.mem_map.1 member
    exact .inl rfl
  · obtain rfl := List.mem_singleton.1 member
    exact .inr ⟨t.kind, rfl⟩

/-- Tokens that their text is cut into are what is found in it. -/
theorem scan_of_lexes (h : Lexes ts []) :
    (scan (textOf ts)).faults = [] ∧ (scan (textOf ts)).lexemes = lexemes 0 ts := by
  have cut : pieces (textOf ts) = ts.flatMap Spaced.pieces := by
    rw [← flatMap_chars]
    exact pieces_of_cuts h
  constructor
  · simp only [scan, cut]
    exact faultless_of_sound (sound_pieces ts)
  · have tail : pieces (textOf ts) = ts.flatMap Spaced.pieces ++ [].map (⟨.trivia, ·⟩) := by
      simpa using cut
    exact (scan_of_pieces tail).1

/-- What follows some tokens matters to the last one alone. -/
theorem Lexes.last (h : Lexes (ts ++ [t]) x) (last : t.piece.Cut y) : Lexes (ts ++ [t]) y := by
  have split : (ts ++ [t]).flatMap Spaced.pieces =
      (ts.flatMap Spaced.pieces ++ t.gap.map (⟨.trivia, ·⟩)) ++ [t.piece] := by
    simp [Spaced.pieces, Spaced.piece]
  unfold Lexes at h ⊢
  rw [split] at h ⊢
  refine cuts_last (fun p member => ?_) h last
  rcases List.mem_append.1 member with member | member
  · exact sound_pieces ts p member
  · obtain ⟨s, -, rfl⟩ := List.mem_map.1 member
    exact .inl rfl

theorem Lexes.cut_last (h : Lexes (ts ++ [t]) x) : t.piece.Cut x := by
  simpa [textOf] using (lexes_cons.1 (lexes_append.1 h).2).2.1

theorem cut_congr (cut : t.piece.Cut x) (like : Like x y) (quiet : t.kind = .number → Quiet x y) :
    t.piece.Cut y := by
  obtain ⟨c, cs, chars, found⟩ := cut
  refine ⟨c, cs, chars, first_congr (.inr ⟨_, rfl⟩) ?_ (fun kind => quiet (PieceKind.token.inj kind)) found⟩
  exact like.imp_right fun stop => ⟨PieceKind.noConfusion, stop⟩

/-- What follows tokens starts as it did, or with a character that goes on with no
token, but with none that goes on with a word. -/
def Soft (x y : Source) : Prop := Like x y ∧ ∀ d ∈ y.head?, isWordRest d = false

theorem soft_of_stop (stop : d ∈ stops) (y : Source) : Soft x (d :: y) := by
  have stop' : ∀ e ∈ (d :: y).head?, e ∈ stops := by
    rintro e head
    exact Option.some.inj head ▸ stop
  exact ⟨.inr stop', fun e head => not_isWordRest_of_stops e (stop' e head)⟩

theorem Soft.quiet (soft : Soft x y) : Quiet x y := by
  refine .inl fun d head letter => ?_
  have word : ∀ d ∈ ['x', 'X', 'e', 'E'], isWordRest d = true :=
    List.all_iff_forall_prop.1 (by decide)
  exact Bool.false_ne_true ((soft.2 d head).symm.trans (word d letter))

theorem Lexes.soft (h : Lexes ts x) (soft : Soft x y) : Lexes ts y := by
  rcases List.eq_nil_or_concat' ts with rfl | ⟨us, t, rfl⟩
  · trivial
  · exact h.last (cut_congr h.cut_last soft.1 fun _ => soft.quiet)

/-- Before a token that is no number may stand what starts like the text that
stood there. -/
theorem Lexes.like (h : Lexes (ts ++ [t]) x) (other : t.kind ≠ .number) (like : Like x y) :
    Lexes (ts ++ [t]) y :=
  h.last (cut_congr h.cut_last like fun kind => absurd kind other)

theorem Lexes.word (h : Lexes (ts ++ [t]) x) {m : Mark} (mark : t.kind = .mark m)
    (word : ∀ d ∈ y.head?, isWordStart d = true) : Lexes (ts ++ [t]) y := by
  refine h.last ?_
  obtain ⟨c, cs, chars, found⟩ := h.cut_last
  refine ⟨c, cs, chars, ?_⟩
  have kind : t.piece.kind = .token (.mark m) := congrArg PieceKind.token mark
  rw [kind] at found ⊢
  exact first_mark_congr word found

theorem solid_of_token {kind : Kind} (h : first c cs = (.token kind, n)) : isSpace c = false := by
  cases space : isSpace c with
  | false => rfl
  | true =>
      rw [first_eq, start_space.2 space] at h
      cases h

theorem Lexes.solid (h : Lexes (t :: ts) y) : ∀ d ∈ t.chars.head?, isSpace d = false := by
  obtain ⟨c, cs, chars, found⟩ := (lexes_cons.1 h).2.1
  have chars : t.chars = c :: cs := chars
  rw [chars]
  intro d head
  obtain rfl := Option.some.inj head
  exact solid_of_token found

/-- What starts with a mark goes on with no word. -/
theorem Lexes.mark_first (h : Lexes (t :: ts) y) {m : Mark} (mark : t.kind = .mark m) :
    ∀ d ∈ (textOf (t :: ts)).head?, isWordRest d = false := by
  obtain ⟨gap, ⟨c, cs, chars, found⟩, -⟩ := lexes_cons.1 h
  have chars : t.chars = c :: cs := chars
  have kind : t.piece.kind = .token (.mark m) := congrArg PieceKind.token mark
  have text : textOf (t :: ts) = t.gap.flatten ++ (t.chars ++ textOf ts) := by
    simp [textOf, Spaced.text, Spaced.gapText]
  intro d head
  rw [text] at head
  cases trivia : t.gap with
  | nil =>
      rw [trivia, chars] at head
      obtain rfl := Option.some.inj head
      exact not_isWordRest_of_mark (kind ▸ found)
  | cons s gap' =>
      rw [trivia] at gap head
      obtain ⟨⟨e, es, same, white⟩, -⟩ := gap
      have same : s = e :: es := same
      rw [same] at head
      obtain rfl := Option.some.inj head
      exact not_isWordRest_of_trivia white

/-- Trivia end before another token as well. -/
theorem Parted.congr {gap : List Source} (h : Parted gap (c :: x)) (solid : isSpace c = false)
    (other : ∀ d ∈ y.head?, isSpace d = false) : Parted gap y := by
  rcases List.eq_nil_or_concat' gap with rfl | ⟨init, last, rfl⟩
  · trivial
  · unfold Parted at h ⊢
    rw [List.map_append, List.map_singleton] at h ⊢
    refine cuts_last (fun p member => ?_) h ?_
    · obtain ⟨s, -, rfl⟩ := List.mem_map.1 member
      exact .inl rfl
    · obtain ⟨e, es, chars, found⟩ := (cuts_append.1 h).2.1
      exact ⟨e, es, chars, first_trivia_congr rfl solid other found⟩

/-- Without the trivia before the first token. -/
theorem Lexes.regap {gap : List Source} (h : Lexes ts y) (parted : Parted gap (core ts ++ y)) :
    Lexes (regap gap ts) y := by
  cases ts with
  | nil => trivial
  | cons t ts =>
      obtain ⟨-, cut, rest⟩ := lexes_cons.1 h
      refine lexes_cons.2 ⟨?_, cut, rest⟩
      simpa [core] using parted

section Fronts

variable {loose : Prop} {us' : List Spaced}

/-- The first tokens stand behind the same trivia and are alike or, if `loose`,
the other one opens parentheses or a conversion. -/
def Fronts (loose : Prop) (ts ts' : List Spaced) : Prop :=
  ∃ t us t' us', ts = t :: us ∧ ts' = t' :: us' ∧ t'.gap = t.gap ∧
    (t'.chars = t.chars ∨ loose ∧ (t'.chars = ['('] ∨ t'.chars = "uint256".toList))

theorem Fronts.mono {loose' : Prop} (h : Fronts loose us us') (le : loose → loose') :
    Fronts loose' us us' := by
  obtain ⟨t, ts, t', ts', same, same', gap, chars⟩ := h
  exact ⟨t, ts, t', ts', same, same', gap, chars.imp_right fun other => ⟨le other.1, other.2⟩⟩

theorem Fronts.append (h : Fronts loose us us') (vs vs' : List Spaced) :
    Fronts loose (us ++ vs) (us' ++ vs') := by
  obtain ⟨t, ts, t', ts', rfl, rfl, gap, chars⟩ := h
  exact ⟨t, ts ++ vs, t', ts' ++ vs', rfl, rfl, gap, chars⟩

/-- They are alike without the trivia before them. -/
theorem Fronts.bare (h : Fronts loose us us') : Fronts loose (regap [] us) (regap [] us') := by
  obtain ⟨t, ts, t', ts', rfl, rfl, -, chars⟩ := h
  exact ⟨{ t with gap := [] }, ts, { t' with gap := [] }, ts', rfl, rfl, rfl, chars⟩

theorem Fronts.ne_nil (h : Fronts loose us us') : us' ≠ [] := by
  obtain ⟨t, ts, t', ts', -, rfl, -⟩ := h
  exact List.cons_ne_nil t' ts'

/-- Their texts start alike, or the other one with what opens. -/
theorem Fronts.head (h : Fronts loose us us') (x y : Source) :
    (textOf us' ++ y).head? = (textOf us ++ x).head? ∨
      loose ∧ ((textOf us' ++ y).head? = some '(' ∨ (textOf us' ++ y).head? = some 'u') := by
  obtain ⟨t, ts, t', ts', rfl, rfl, gap, chars⟩ := h
  have text : ∀ (t : Spaced) ts z, textOf (t :: ts) ++ z = t.gap.flatten ++ (t.chars ++ (textOf ts ++ z)) := by
    intro t ts z
    simp [textOf, Spaced.text, Spaced.gapText]
  rw [text, text, gap]
  cases t.gap.flatten with
  | cons c cs => exact .inl rfl
  | nil =>
      rcases chars with same | ⟨holds, same | same⟩
      · obtain ⟨c, cs, chars⟩ := List.exists_cons_of_ne_nil t.chars_ne
        rw [same, chars]
        exact .inl rfl
      · rw [same]
        exact .inr ⟨holds, .inl rfl⟩
      · rw [same]
        exact .inr ⟨holds, .inr rfl⟩

/-- What stands before the first token ends there as well. -/
theorem Lexes.front (h : Lexes (ts ++ [t]) (textOf us ++ x)) (fronts : Fronts loose us us')
    (kind : (∃ m, t.kind = .mark m) ∨ t.kind ≠ .number ∧ ¬ loose) (y : Source) :
    Lexes (ts ++ [t]) (textOf us' ++ y) := by
  have other : t.kind ≠ .number := by
    rcases kind with ⟨m, mark⟩ | other
    · simp [mark]
    · exact other.1
  rcases fronts.head x y with same | ⟨holds, opens | word⟩
  · exact h.like other (.inl same)
  · refine h.like other (.inr fun d head => ?_)
    obtain rfl := Option.some.inj (opens.symm.trans head)
    decide
  · obtain ⟨m, mark⟩ := kind.resolve_right fun other => other.2 holds
    refine h.word mark fun d head => ?_
    obtain rfl := Option.some.inj (word.symm.trans head)
    decide

end Fronts

end SafeSubset.Token
