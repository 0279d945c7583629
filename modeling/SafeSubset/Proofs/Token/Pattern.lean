import SafeSubset.Proofs.Token.Boundary

/-! The patterns of the vocabulary. A token that is cut off spells the pattern of
its kind, and nothing longer at its place spells a pattern of any kind. -/
namespace SafeSubset.Token

/-- The texts of a kind. An identifier may spell a keyword here; that such a word
is the keyword is a matter of which kind is chosen. -/
inductive Kind.Spells : Kind → Source → Prop where
  | keyword (k : Keyword) : Spells (.keyword k) k.text.toList
  | mark (m : Mark) : Spells (.mark m) m.text.toList
  | decimal {c : Char} {cs : Source} (first : isDigit c) (digits : ∀ d ∈ cs, isDigit d) :
      Spells .number (c :: cs)
  | exponent {c e d : Char} {cs ds : Source} (first : isDigit c) (digits : ∀ d ∈ cs, isDigit d)
      (letter : e = 'e' ∨ e = 'E') (lead : isDigit d) (power : ∀ d ∈ ds, isDigit d) :
      Spells .number (c :: (cs ++ e :: d :: ds))
  | hexadecimal {x d : Char} {ds : Source} (letter : x = 'x' ∨ x = 'X') (lead : isHexDigit d)
      (digits : ∀ d ∈ ds, isHexDigit d) : Spells .number ('0' :: x :: d :: ds)
  | quoted {q : Char} {cs : Source} (quote : q ∈ quotes) (body : Quoted q cs) :
      Spells .string (q :: cs)
  | hexString {q : Char} {ds : Source} (quote : q ∈ quotes)
      (digits : ∀ d ∈ ds, isHexDigit d ∨ d = '_') :
      Spells .string ('h' :: 'e' :: 'x' :: q :: (ds ++ [q]))
  | identifier {c : Char} {cs : Source} (first : isWordStart c) (rest : ∀ d ∈ cs, isWordRest d) :
      Spells .identifier (c :: cs)

variable {c : Char} {cs ds x : Source} {k : Kind}

section Spelled

theorem Keyword.mem_all (k : Keyword) : k ∈ Keyword.all := by
  cases k <;> decide

/-- A keyword is a word. -/
theorem Keyword.spelled (k : Keyword) :
    ∃ c cs, k.text.toList = c :: cs ∧ isWordStart c ∧ ∀ d ∈ cs, isWordRest d := by
  have every : ∀ k ∈ Keyword.all, k.text.toList.head?.any isWordStart &&
      k.text.toList.tail.all isWordRest := by decide +kernel
  have own := every k k.mem_all
  cases text : k.text.toList with
  | nil => simp [text] at own
  | cons c cs => exact ⟨c, cs, rfl, by simpa [text] using own⟩

theorem spells_wordKind (first : isWordStart c) (rest : ∀ d ∈ cs, isWordRest d) :
    (wordKind (String.ofList (c :: cs))).Spells (c :: cs) := by
  unfold wordKind
  cases found : Keyword.ofText? (String.ofList (c :: cs)) with
  | none => exact .identifier first rest
  | some k =>
      have same : k.text = String.ofList (c :: cs) := by simpa using List.find?_some found
      have text : k.text.toList = c :: cs := by simp [same]
      exact text ▸ .keyword k

/-- A word of the kind of the identifiers spells no keyword. -/
theorem text_ne_of_wordKind {word : String} (h : wordKind word = .identifier) (k : Keyword) :
    k.text ≠ word := by
  rintro rfl
  cases found : Keyword.ofText? k.text with
  | none =>
      have missing := List.find?_eq_none.1 found k k.mem_all
      simp at missing
  | some l => simp [wordKind, found] at h

theorem spells_of_numberLength (first : isDigit c) (h : numberLength c (cs ++ x) = cs.length) :
    Kind.number.Spells (c :: cs) := by
  rw [numberLength_eq] at h
  split at h
  · next hex =>
    obtain ⟨zero, letter, some⟩ := hex
    cases cs with
    | nil => cases h
    | cons e ds =>
        have run : runLength isHexDigit (ds ++ x) = ds.length := Nat.succ.inj h
        obtain ⟨d, ds, rfl⟩ := List.exists_cons_of_length_pos (l := ds) (run ▸ some)
        have digits := (runLength_eq_iff.1 run).1
        subst zero
        exact .hexadecimal (by simpa using letter) (digits d List.mem_cons_self) fun d member =>
          digits d (List.mem_cons_of_mem _ member)
  · obtain ⟨run, rest, same, length, digits, ends⟩ := exists_run isDigit (cs ++ x)
    rw [same, ← length.trans (congrArg (runLength isDigit) same), List.drop_left] at h
    rw [exponentLength_eq] at h
    split at h
    · next power =>
      obtain ⟨letter, some⟩ := power
      obtain ⟨power, rest', same', length', digits', -⟩ := exists_run isDigit rest.tail
      obtain ⟨e, rest, rfl⟩ : ∃ e r, rest = e :: r := by
        cases rest with
        | nil => simp at letter
        | cons e r => exact ⟨e, r, rfl⟩
      obtain ⟨d, power, rfl⟩ := List.exists_cons_of_length_pos (l := power) (length' ▸ some)
      have all : cs ++ x = (run ++ e :: d :: power) ++ rest' := by
        rw [same, List.append_assoc]
        exact congrArg (fun t => run ++ e :: t) same'
      obtain ⟨rfl, -⟩ := List.append_inj all (by simpa [length'] using h.symm)
      exact .exponent first digits (by simpa using letter) (digits' d List.mem_cons_self)
        fun d member => digits' d (List.mem_cons_of_mem _ member)
    · obtain ⟨rfl, -⟩ := List.append_inj same h.symm
      exact .decimal first digits

theorem spells_of_quotedExtent (quote : c ∈ quotes)
    (h : quotedExtent c (cs ++ x) = (cs.length, true)) : Kind.string.Spells (c :: cs) := by
  obtain ⟨body, rest, same, length, quoted⟩ := quoted_of_extent h
  obtain ⟨rfl, -⟩ := List.append_inj same length.symm
  exact .quoted quote quoted

theorem spells_of_wordAt (letter : isWordStart c)
    (h : wordAt c (cs ++ x) = (.token k, cs.length)) :
    k.Spells (c :: cs) ∧ (k = .identifier → ∀ w : Keyword, w.text.toList ≠ c :: cs) := by
  by_cases hexadecimal : Hexadecimal c (cs ++ x)
  · obtain ⟨q, quote, rest, rfl, same⟩ := hexadecimal
    rw [same, wordAt_hexadecimal quote] at h
    obtain ⟨kind, length⟩ := Prod.mk.inj h
    obtain ⟨closed, token⟩ := closed_of_quotedKind (.inr ⟨_, rfl⟩) kind
    cases token
    obtain ⟨run, tail, split, size, digits, -⟩ :=
      exists_run (fun c => isHexDigit c || c = '_') rest
    simp only [hexStringExtent, split, ← size.trans (congrArg _ split), List.drop_left] at closed length
    by_cases head : tail.head? = some q
    · obtain ⟨tail, rfl⟩ := List.head?_eq_some_iff.1 head
      have all : cs ++ x = ('e' :: 'x' :: q :: (run ++ [q])) ++ tail := by simp [same, split]
      obtain ⟨rfl, -⟩ := List.append_inj all (by simpa using length.symm)
      exact ⟨.hexString quote fun d member => by simpa using digits d member, fun other => by cases other⟩
    · rw [if_neg head] at closed
      cases closed
  · rw [wordAt_plain hexadecimal] at h
    obtain ⟨kind, run⟩ := Prod.mk.inj h
    rw [takeWhile_of_run run] at kind
    cases kind
    refine ⟨spells_wordKind letter (runLength_eq_iff.1 run).1, fun identifier w text => ?_⟩
    exact text_ne_of_wordKind identifier w (by rw [← text, String.ofList_toList])

end Spelled

/-! A digit starts a number, and what else goes on with a word starts a word. -/
section Starts

variable {next : Option Char} {s : Start}

/-- What is known of a character that starts something. -/
def Start.Shows (c : Char) : Start → Prop
  | space => isSpace c
  | line | block => c = '/'
  | quote => c ∈ quotes
  | digit => isDigit c
  | word => isWordStart c
  | mark => True

theorem shows_of_start (h : start c next = s) : s.Shows c := by
  subst h
  unfold start
  split
  · next space => exact space
  split
  · next line => exact line.1
  split
  · next block => exact block.1
  split
  · next quote => simpa [Start.Shows, quotes] using quote
  split
  · next digit => exact digit
  split
  · next word => exact word
  · trivial

theorem start_quote (quote : c ∈ quotes) : start c next = .quote := by
  simp only [quotes, List.mem_cons, List.not_mem_nil, or_false] at quote
  rcases quote with rfl | rfl <;> rfl

theorem not_isDigit_of_isWordStart (letter : isWordStart c) : isDigit c = false := by
  have disjoint : ∀ lo : Char, '9' < lo → lo ≤ c → '0' ≤ c ∧ c ≤ '9' → False :=
    fun lo above le digit => absurd (Nat.le_trans le digit.2) (Nat.not_le.2 above)
  simp only [isWordStart, Bool.or_eq_true, Bool.and_eq_true, decide_eq_true_eq] at letter
  rw [Bool.eq_false_iff]
  intro digit
  simp only [isDigit, Bool.and_eq_true, decide_eq_true_eq] at digit
  rcases letter with ((⟨le, -⟩ | ⟨le, -⟩) | rfl) | rfl
  · exact disjoint 'a' (by decide) le digit
  · exact disjoint 'A' (by decide) le digit
  · exact absurd digit (by decide)
  · exact absurd digit (by decide)

theorem start_digit (digit : isDigit c) : start c next = .digit := by
  have rest : isWordRest c := by simp [isWordRest, digit]
  refine (start_of_isWordRest rest next).resolve_right fun word => ?_
  have letter : isWordStart c := shows_of_start word
  simp [not_isDigit_of_isWordStart letter] at digit

theorem start_word (letter : isWordStart c) : start c next = .word := by
  have rest : isWordRest c := by simp [isWordRest, letter]
  refine (start_of_isWordRest rest next).resolve_left fun starts => ?_
  have digit : isDigit c := shows_of_start starts
  simp [not_isDigit_of_isWordStart letter] at digit

end Starts

/-- A token that is cut off spells its kind, and is no identifier if it spells a
keyword. -/
theorem spells_of_first (h : first c (cs ++ x) = (.token k, cs.length)) :
    k.Spells (c :: cs) ∧ (k = .identifier → ∀ w : Keyword, w.text.toList ≠ c :: cs) := by
  have cut := h
  rw [first_eq] at h
  cases starts : start c (cs ++ x).head? with
  | space | line =>
      rw [starts] at h
      cases h
  | block =>
      rw [starts] at h
      simp only [blockAt] at h
      split at h <;> cases h
  | quote =>
      rw [starts] at h
      obtain ⟨closed, token⟩ := closed_of_quotedKind (.inr ⟨_, rfl⟩) (congrArg Prod.fst h)
      cases token
      have extent : quotedExtent c (cs ++ x) = (cs.length, true) :=
        Prod.ext (congrArg Prod.snd h) closed
      exact ⟨spells_of_quotedExtent (shows_of_start starts) extent, fun other => by cases other⟩
  | digit =>
      rw [starts] at h
      cases congrArg Prod.fst h
      exact ⟨spells_of_numberLength (shows_of_start starts) (congrArg Prod.snd h), fun other => by cases other⟩
  | word =>
      rw [starts] at h
      exact spells_of_wordAt (shows_of_start starts) h
  | mark =>
      rw [starts] at h
      simp only [markAt] at h
      split at h
      · next m found =>
        cases congrArg Prod.fst h
        have text : m.text.toList = c :: cs := text_of_mark cut
        exact ⟨text ▸ .mark m, fun other => by cases other⟩
      · cases h

section Longest

theorem le_runLength {p : Char → Bool} (h : ∀ d ∈ cs, p d) : cs.length ≤ runLength p (cs ++ x) := by
  induction cs with
  | nil => exact Nat.zero_le _
  | cons d cs ih =>
      have tail := ih fun e member => h e (List.mem_cons_of_mem _ member)
      simpa [runLength, h d List.mem_cons_self] using tail

theorem length_le_of_longest {m n : Mark} (found : Mark.longest? cs = some m)
    (here : n.text.toList <+: cs) : n.text.toList.length ≤ m.text.toList.length := by
  obtain ⟨-, as, bs, split, before⟩ := List.find?_eq_some_iff_append.1 found
  have sorted := Mark.sorted
  rw [split, List.pairwise_append, List.pairwise_cons] at sorted
  have member := split ▸ n.mem_all
  rcases List.mem_append.1 member with earlier | later
  · have missing := before n earlier
    simp only [Bool.not_eq_true', ← Bool.not_eq_true, List.isPrefixOf_iff_prefix] at missing
    exact absurd here missing
  · rcases List.mem_cons.1 later with rfl | later
    · exact Nat.le_refl _
    · exact sorted.2.1.1 n later

theorem wordAt_le (rest : ∀ d ∈ ds, isWordRest d) : ds.length ≤ (wordAt c (ds ++ x)).2 := by
  by_cases hexadecimal : Hexadecimal c (ds ++ x)
  · obtain ⟨q, quote, tail, rfl, same⟩ := hexadecimal
    rw [same, wordAt_hexadecimal quote]
    -- The quotation mark is no part of the word.
    have run : ds.length ≤ runLength isWordRest (['e', 'x'] ++ q :: tail) := by
      have run := le_runLength (x := x) rest
      rwa [same] at run
    have letters : ∀ d ∈ ['e', 'x'], isWordRest d = true := List.all_iff_forall_prop.1 (by decide)
    have ends : runLength isWordRest (['e', 'x'] ++ q :: tail) = 2 :=
      runLength_eq_iff.2 ⟨letters, by simpa using (not_isWordRest_of_quotes q quote).1⟩
    simp only
    omega
  · rw [wordAt_plain hexadecimal]
    exact le_runLength rest

theorem numberLength_le_of_spells (h : Kind.number.Spells (c :: ds)) :
    isDigit c ∧ ds.length ≤ numberLength c (ds ++ x) := by
  rw [numberLength_eq]
  have other : ∀ d, isDigit d → d ≠ 'x' ∧ d ≠ 'X' := by
    rintro d digit
    constructor <;> rintro rfl <;> cases digit
  cases h with
  | decimal first digits =>
      refine ⟨first, ?_⟩
      split
      · next hex =>
        cases ds with
        | nil => exact Nat.zero_le _
        | cons d ds =>
            have := other d (digits d List.mem_cons_self)
            simp [this] at hex
      · exact (le_runLength digits).trans (Nat.le_add_right _ _)
  | @exponent _ e d cs ds first digits letter lead power =>
      refine ⟨first, ?_⟩
      have letterEnds : isDigit e = false ∧ e ≠ 'x' ∧ e ≠ 'X' := by
        rcases letter with rfl | rfl <;> decide
      have run : runLength isDigit (cs ++ (e :: d :: ds ++ x)) = cs.length :=
        runLength_eq_iff.2 ⟨digits, by simpa using letterEnds.1⟩
      have ends : ds.length + 1 ≤ runLength isDigit (d :: ds ++ x) :=
        le_runLength (List.forall_mem_cons.2 ⟨lead, power⟩)
      rw [List.append_assoc, if_neg, run, List.drop_left, exponentLength_eq, if_pos]
      · simp only [List.length_append, List.length_cons, List.cons_append, List.tail_cons] at ends ⊢
        omega
      · exact ⟨by simpa using letter, Nat.lt_of_lt_of_le (Nat.succ_pos _) ends⟩
      · rintro ⟨-, letter, -⟩
        cases cs with
        | nil => simp [letterEnds] at letter
        | cons d cs => simp [other d (digits d List.mem_cons_self)] at letter
  | @hexadecimal e d ds letter lead digits =>
      have ends : ds.length + 1 ≤ runLength isHexDigit (d :: ds ++ x) :=
        le_runLength (List.forall_mem_cons.2 ⟨lead, digits⟩)
      refine ⟨rfl, ?_⟩
      rw [if_pos]
      · simpa using ends
      · exact ⟨rfl, by simpa using letter, Nat.lt_of_lt_of_le (Nat.succ_pos _) ends⟩

/-- The characters that marks start with start nothing else but comments. -/
theorem start_of_spelled {m : Mark} (text : m.text.toList = c :: ds) (next : Option Char) :
    start c next = .mark ∨ start c next = .line ∨ start c next = .block := by
  have every : ∀ m ∈ Mark.all, m.text.toList.head?.all fun c =>
      !isSpace c && c ≠ '"' && c ≠ '\'' && !isDigit c && !isWordStart c := by decide +kernel
  have own := every m m.mem_all
  simp only [text, List.head?_cons, Option.all_some, Bool.and_eq_true, Bool.not_eq_true',
    decide_eq_true_eq] at own
  obtain ⟨⟨⟨⟨space, double⟩, single⟩, digit⟩, word⟩ := own
  unfold start
  simp only [space, digit, word, double, single, or_self, if_false, Bool.false_eq_true]
  split
  · exact .inr (.inl rfl)
  split
  · exact .inr (.inr rfl)
  · exact .inl rfl

theorem mark_le_first {m : Mark} (text : m.text.toList = c :: ds)
    (cut : (first c (ds ++ x)).1 = .token k) : ds.length ≤ (first c (ds ++ x)).2 := by
  rw [first_eq] at cut ⊢
  rcases start_of_spelled text (ds ++ x).head? with starts | starts | starts
  · rw [starts] at cut ⊢
    simp only [markAt] at cut ⊢
    split at cut
    · next n found =>
      have le := length_le_of_longest found (n := m) (text ▸ List.prefix_append (c :: ds) x)
      simp only [text, List.length_cons, String.length_toList] at le
      simp only
      omega
    · cases cut
  · rw [starts] at cut
    cases cut
  · rw [starts] at cut
    simp only [blockAt] at cut
    split at cut <;> cases cut

theorem word_le_first (letter : isWordStart c) (rest : ∀ d ∈ ds, isWordRest d) :
    ds.length ≤ (first c (ds ++ x)).2 := by
  rw [first_eq, start_word letter]
  exact wordAt_le rest

theorem string_le_first (spells : Kind.string.Spells (c :: ds)) :
    ds.length ≤ (first c (ds ++ x)).2 := by
  cases spells with
  | quoted quote body =>
      rw [first_eq, start_quote quote]
      simp only [body.extent]
      exact Nat.le_refl _
  | @hexString q es quote digits =>
      have stops := not_isHexDigit_of_quotes q quote
      have run : runLength (fun c => isHexDigit c || c = '_') (es ++ q :: x) = es.length :=
        runLength_eq_iff.2 ⟨fun d member => by simpa using digits d member, by simpa using stops⟩
      rw [first_eq, start_word (by decide)]
      simp [wordAt_hexadecimal quote, hexStringExtent, run]

/-- No pattern takes more of a text than its first token. -/
theorem Kind.Spells.le_first {token : Kind} (spells : k.Spells (c :: ds))
    (cut : (first c (ds ++ x)).1 = .token token) : ds.length ≤ (first c (ds ++ x)).2 := by
  cases k with
  | keyword k =>
      obtain ⟨d, es, same, letter, rest⟩ := k.spelled
      generalize text : c :: ds = p at spells
      cases spells
      cases text.trans same
      exact word_le_first letter rest
  | mark m =>
      generalize text : c :: ds = p at spells
      cases spells
      exact mark_le_first text.symm cut
  | number =>
      obtain ⟨digit, le⟩ := numberLength_le_of_spells (x := x) spells
      rw [first_eq, start_digit digit]
      exact le
  | string => exact string_le_first spells
  | identifier =>
      cases spells with
      | identifier letter rest => exact word_le_first letter rest

end Longest

end SafeSubset.Token
