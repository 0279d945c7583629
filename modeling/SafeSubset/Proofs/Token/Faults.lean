import SafeSubset.Proofs.Token.Pattern
import SafeSubset.Token.Scan

/-! What stands at a fault. Where no pattern spells a text it is one character, or a quoted
text as far as it goes; a comment or a hexadecimal string that is not closed is one as well,
though its first characters would spell a mark or a word. -/
namespace SafeSubset.Token

/-- No pattern spells a text at the front. -/
def Unspelled (text : Source) : Prop :=
  ∀ (k : Kind) (front : Source), front <+: text → ¬ k.Spells front

/-- What may stand behind an opening quotation mark: characters other than the mark and the
end of the line, each of them escaped or not. -/
inductive Inside (quote : Char) : Source → Prop where
  | nil : Inside quote []
  | plain {c : Char} {cs : Source} (other : c ≠ quote) (line : c ≠ '\n') (slash : c ≠ '\\')
      (rest : Inside quote cs) : Inside quote (c :: cs)
  | escape {d : Char} {cs : Source} (line : d ≠ '\n') (rest : Inside quote cs) :
      Inside quote ('\\' :: d :: cs)

/-- Where a quoted text is broken off: at the end of the text or of the line, or at a
backslash that escapes nothing. -/
def Broken (after : Source) : Prop :=
  after.head?.all (· = '\n') ∨ after.head? = some '\\' ∧ after.tail.head?.all (· = '\n')

/-- The texts of faults in front of `after`. -/
inductive Faulty (after : Source) : Fault.Cause → Source → Prop where
  /-- A comment takes the rest of the text. -/
  | comment {body : Source} (opens : ¬ ['*', '/'] <:+: body) (last : after = []) :
      Faulty after .unclosedComment ('/' :: '*' :: body)
  | quoted {q : Char} {body : Source} (quote : q ∈ quotes) (inside : Inside q body)
      (breaks : Broken after) (unspelled : Unspelled (q :: body ++ after)) :
      Faulty after (.unexpected (q :: body)) (q :: body)
  /-- The word before the quotation mark is not taken for an identifier. -/
  | hexString {q : Char} {ds : Source} (quote : q ∈ quotes)
      (digits : ∀ d ∈ ds, isHexDigit d ∨ d = '_')
      (breaks : ∀ d ∈ after.head?, ¬ isHexDigit d ∧ d ≠ '_' ∧ d ≠ q) :
      Faulty after (.unexpected ('h' :: 'e' :: 'x' :: q :: ds)) ('h' :: 'e' :: 'x' :: q :: ds)
  | character {c : Char} (other : c ∉ quotes) (unspelled : Unspelled (c :: after)) :
      Faulty after (.unexpected [c]) [c]

variable {c : Char} {cs ds x after : Source} {k : Kind}

section Unspelled

theorem Kind.Spells.ne_nil (spells : k.Spells cs) : cs ≠ [] := by
  cases spells with
  | keyword k =>
      obtain ⟨c, cs, same, -⟩ := k.spelled
      simp [same]
  | mark m => exact m.text_ne_nil
  | _ => simp

/-- What starts where a text is spelled. -/
theorem Kind.Spells.starts (spells : k.Spells (c :: ds)) (next : Option Char) :
    start c next = .word ∨ start c next = .digit ∨ start c next = .quote ∧ Quoted c ds ∨
      start c next ≠ .quote ∧ ∃ m : Mark, m.text.toList = c :: ds := by
  cases k with
  | keyword k =>
      obtain ⟨d, es, same, letter, -⟩ := k.spelled
      generalize text : c :: ds = p at spells
      cases spells
      cases text.trans same
      exact .inl (start_word letter)
  | mark m =>
      generalize text : c :: ds = p at spells
      cases spells
      refine .inr (.inr (.inr ⟨?_, m, rfl⟩))
      rcases start_of_spelled text.symm next with starts | starts | starts <;> simp [starts]
  | number => exact .inr (.inl (start_digit (numberLength_le_of_spells (x := []) spells).1))
  | string =>
      cases spells with
      | quoted quote body => exact .inr (.inr (.inl ⟨start_quote quote, body⟩))
      | hexString quote digits => exact .inl (start_word (by decide))
  | identifier =>
      cases spells with
      | identifier letter rest => exact .inl (start_word letter)

/-- What starts a mark and begins with none spells nothing. -/
theorem unspelled_of_mark (starts : start c cs.head? = .mark) (missing : Mark.longest? (c :: cs) = none) :
    Unspelled (c :: cs) := by
  intro k front here spells
  obtain ⟨d, ds, rfl⟩ := List.exists_cons_of_ne_nil spells.ne_nil
  obtain ⟨rfl, -⟩ := List.cons_prefix_cons.1 here
  rcases spells.starts cs.head? with word | digit | ⟨quote, -⟩ | ⟨-, m, text⟩
  · cases word.symm.trans starts
  · cases digit.symm.trans starts
  · cases quote.symm.trans starts
  · have none := List.find?_eq_none.1 missing m m.mem_all
    exact none (List.isPrefixOf_iff_prefix.2 (text ▸ here))

/-- A quotation that is not closed spells nothing. -/
theorem unspelled_of_quote (quote : c ∈ quotes) (opened : (quotedExtent c cs).2 = false) :
    Unspelled (c :: cs) := by
  intro k front here spells
  obtain ⟨d, ds, rfl⟩ := List.exists_cons_of_ne_nil spells.ne_nil
  obtain ⟨rfl, rest, rfl⟩ := List.cons_prefix_cons.1 here
  have starts : start d (ds ++ rest).head? = .quote := start_quote quote
  rcases spells.starts (ds ++ rest).head? with word | digit | ⟨-, body⟩ | ⟨other, -⟩
  · cases word.symm.trans starts
  · cases digit.symm.trans starts
  · rw [body.extent rest] at opened
    cases opened
  · exact other starts

end Unspelled

section Extents

/-- A comment without an end has none anywhere. -/
theorem not_infix_of_commentLength (opens : commentLength? cs = none) : ¬ ['*', '/'] <:+: cs := by
  induction cs with
  | nil => simp
  | cons c cs ih =>
      rw [commentLength_cons] at opens
      split at opens
      · cases opens
      · next other =>
        rw [List.infix_cons_iff, not_or]
        refine ⟨fun here => ?_, ih (Option.map_eq_none_iff.1 opens)⟩
        obtain ⟨rfl, rest, rfl⟩ := List.cons_prefix_cons.1 here
        exact other ⟨rfl, rfl⟩

theorem opened_of_extent {quote : Char} {n : Nat} (h : quotedExtent quote cs = (n, false)) :
    ∃ body rest, cs = body ++ rest ∧ body.length = n ∧ Inside quote body ∧ Broken rest := by
  fun_induction quotedExtent quote cs generalizing n with
  | case1 =>
      cases h
      exact ⟨[], [], rfl, rfl, .nil, .inl rfl⟩
  | case2 | case5 => cases h
  | case3 c other ends =>
      cases h
      refine ⟨[], [c], rfl, rfl, .nil, ?_⟩
      rcases ends with rfl | rfl
      · exact .inl rfl
      · exact .inr ⟨rfl, rfl⟩
  | case4 c other goes =>
      cases h
      rw [not_or] at goes
      exact ⟨[c], [], rfl, rfl, .plain other goes.1 goes.2 .nil, .inl rfl⟩
  | case6 =>
      cases h
      exact ⟨[], _, rfl, rfl, .nil, .inl rfl⟩
  | case7 =>
      cases h
      exact ⟨[], _, rfl, rfl, .nil, .inr ⟨rfl, rfl⟩⟩
  | case8 d cs line m closed inner other newline ih =>
      cases h
      obtain ⟨body, rest, rfl, length, inside, breaks⟩ := ih inner
      exact ⟨_, rest, rfl, by simp [length], .escape line inside, breaks⟩
  | case9 c d cs other line slash m closed inner ih =>
      cases h
      obtain ⟨body, rest, same, length, inside, breaks⟩ := ih inner
      exact ⟨c :: body, rest, by simp [same], by simp [length], .plain other line slash inside, breaks⟩

/-- A hexadecimal string that is not closed ends before what is no digit. -/
theorem opened_of_hexExtent {quote : Char} {n : Nat} (h : hexStringExtent quote cs = (n, false)) :
    ∃ ds rest, cs = ds ++ rest ∧ ds.length = n ∧ (∀ d ∈ ds, isHexDigit d ∨ d = '_') ∧
      ∀ d ∈ rest.head?, ¬ isHexDigit d ∧ d ≠ '_' ∧ d ≠ quote := by
  obtain ⟨run, rest, same, length, digits, ends⟩ := exists_run (fun c => isHexDigit c || c = '_') cs
  simp only [hexStringExtent, same, ← length.trans (congrArg _ same), List.drop_left] at h
  split at h
  · cases h
  · next other =>
    cases h
    refine ⟨run, rest, same, rfl, fun d member => by simpa using digits d member, fun d head => ?_⟩
    have stops : isHexDigit d = false ∧ d ≠ '_' := by simpa using ends d head
    refine ⟨by simp [stops.1], stops.2, ?_⟩
    rintro rfl
    exact other head

end Extents

/-- A comment that is cut off unfinished. -/
theorem faulty_of_comment (cut : first c (cs ++ after) = (.unclosedComment, cs.length)) :
    Faulty after .unclosedComment (c :: cs) := by
  rw [first_eq] at cut
  cases starts : start c (cs ++ after).head? with
  | block =>
      obtain rfl : c = '/' := shows_of_start starts
      have star := start_block starts
      rw [starts] at cut
      simp only [blockAt] at cut
      split at cut
      · cases cut
      · next opens =>
        have all : (cs ++ after).length = cs.length := congrArg Prod.snd cut
        obtain rfl : after = [] := by simpa using all
        rw [List.append_nil] at star opens
        obtain ⟨body, rfl⟩ := List.head?_eq_some_iff.1 star
        exact .comment (not_infix_of_commentLength opens) rfl
  | space | line | digit =>
      rw [starts] at cut
      cases cut
  | quote =>
      rw [starts] at cut
      exact absurd (congrArg Prod.fst cut) (quotedKind_ne (.inr rfl) _)
  | word =>
      rw [starts] at cut
      exact absurd cut (wordAt_ne_comment (.inr rfl) _)
  | mark =>
      rw [starts] at cut
      simp only [markAt] at cut
      split at cut <;> cases cut

theorem opened_of_quotedKind {closed : Bool} (h : quotedKind closed = .unexpected) : closed = false := by
  cases closed with
  | false => rfl
  | true => cases h

/-- What is cut off as no text of the vocabulary. -/
theorem faulty_of_unexpected (cut : first c (cs ++ after) = (.unexpected, cs.length)) :
    Faulty after (.unexpected (c :: cs)) (c :: cs) := by
  rw [first_eq] at cut
  cases starts : start c (cs ++ after).head? with
  | space | line | digit =>
      rw [starts] at cut
      cases cut
  | block =>
      rw [starts] at cut
      simp only [blockAt] at cut
      split at cut <;> cases cut
  | quote =>
      rw [starts] at cut
      obtain ⟨kind, length⟩ := Prod.mk.inj cut
      have opened := opened_of_quotedKind kind
      obtain ⟨body, rest, same, size, inside, breaks⟩ := opened_of_extent (Prod.ext length opened)
      obtain ⟨rfl, rfl⟩ := List.append_inj same size.symm
      exact .quoted (shows_of_start starts) inside breaks
        (unspelled_of_quote (shows_of_start starts) opened)
  | word =>
      rw [starts] at cut
      by_cases hexadecimal : Hexadecimal c (cs ++ after)
      · obtain ⟨q, quote, rest, rfl, same⟩ := hexadecimal
        rw [same, wordAt_hexadecimal quote] at cut
        obtain ⟨kind, length⟩ := Prod.mk.inj cut
        obtain ⟨ds, rest, rfl, size, digits, breaks⟩ :=
          opened_of_hexExtent (Prod.ext rfl (opened_of_quotedKind kind))
        have all : cs ++ after = ('e' :: 'x' :: q :: ds) ++ rest := same
        obtain ⟨rfl, rfl⟩ := List.append_inj all (by simpa [size] using length.symm)
        exact .hexString quote digits breaks
      · rw [wordAt_plain hexadecimal] at cut
        cases cut
  | mark =>
      rw [starts] at cut
      simp only [markAt] at cut
      split at cut
      · cases cut
      · next missing =>
        obtain rfl : cs = [] := List.length_eq_zero_iff.1 (congrArg Prod.snd cut).symm
        refine .character (fun quote => ?_) (unspelled_of_mark starts missing)
        cases (start_quote quote).symm.trans starts

end SafeSubset.Token
