import Mathlib.Data.Bool.AllAny
import Mathlib.Data.List.TakeWhile
import SafeSubset.Proofs.Token.Cut

/-! How far comments, quotations and numbers extend. A comment or a quotation
that is closed ends there whatever follows; a run ends before a character that
does not go on with it, and a number before what cannot make it longer. -/
namespace SafeSubset.Token

variable {p : Char → Bool} {c : Char} {cs x y : Source}

theorem runLength_eq_iff :
    runLength p (cs ++ x) = cs.length ↔ (∀ d ∈ cs, p d) ∧ ∀ d ∈ x.head?, p d = false := by
  induction cs with
  | nil =>
      cases x with
      | nil => simp [runLength]
      | cons d x => cases h : p d <;> simp [runLength, h]
  | cons d cs ih =>
      rw [List.cons_append, List.length_cons, List.forall_mem_cons, and_assoc, ← ih]
      cases h : p d <;> simp [runLength, h]

theorem runLength_le (p : Char → Bool) (cs : Source) : runLength p cs ≤ cs.length :=
  (List.takeWhile_sublist p).length_le

/-- A text is a run and a rest that does not go on with it. -/
theorem exists_run (p : Char → Bool) (cs : Source) :
    ∃ run rest, cs = run ++ rest ∧ run.length = runLength p cs ∧ (∀ d ∈ run, p d) ∧
      ∀ d ∈ rest.head?, p d = false := by
  refine ⟨_, _, (List.takeWhile_append_dropWhile (p := p)).symm, rfl,
    fun d member => List.mem_takeWhile_imp member, fun d head => ?_⟩
  obtain ⟨rest, same⟩ := List.head?_eq_some_iff.1 head
  have stops := List.head_dropWhile_not p (show cs.dropWhile p ≠ [] by simp [same])
  simpa [same] using stops

theorem runLength_eq_zero : runLength p cs = 0 ↔ ∀ c ∈ cs.head?, p c = false := by
  cases cs with
  | nil => simp [runLength]
  | cons d cs => cases h : p d <;> simp [runLength, h]

/-- Behind a run of characters another text goes on with it no more than the
first did. -/
theorem runLength_congr (h : runLength p (cs ++ x) = cs.length) (ends : ∀ d ∈ y.head?, p d = false) :
    runLength p (cs ++ y) = cs.length :=
  runLength_eq_iff.2 ⟨(runLength_eq_iff.1 h).1, ends⟩

section Extents

theorem commentLength_cons (c : Char) (cs : Source) :
    commentLength? (c :: cs) =
      if c = '*' ∧ cs.head? = some '/' then some 2 else (commentLength? cs).map (· + 1) := by
  rw [commentLength?.eq_def]
  split
  · contradiction
  · next same =>
    cases same
    simp
  · next other same =>
    cases same
    rw [if_neg]
    rintro ⟨rfl, head⟩
    obtain ⟨cs, rfl⟩ := List.head?_eq_some_iff.1 head
    exact other _ rfl rfl

theorem commentLength_bounds {n : Nat} (h : commentLength? cs = some n) : 2 ≤ n ∧ n ≤ cs.length := by
  induction cs generalizing n with
  | nil => cases h
  | cons c cs ih =>
      rw [commentLength_cons] at h
      split at h
      · next closes =>
        cases h
        obtain ⟨cs, rfl⟩ := List.head?_eq_some_iff.1 closes.2
        simp
      · obtain ⟨m, inner, rfl⟩ := Option.map_eq_some_iff.1 h
        have := ih inner
        rw [List.length_cons]
        omega

/-- A block comment ends where it ends, whatever follows. -/
theorem commentLength_append (h : commentLength? (cs ++ x) = some cs.length) :
    commentLength? (cs ++ y) = some cs.length := by
  induction cs with
  | nil => have := commentLength_bounds h; simp at this
  | cons c cs ih =>
      rw [List.cons_append, commentLength_cons] at h ⊢
      split at h
      · next closes =>
        obtain ⟨d, rfl⟩ := List.length_eq_one_iff.1 (Nat.succ.inj (Option.some.inj h)).symm
        rw [if_pos (show c = '*' ∧ ([d] ++ y).head? = some '/' from closes)]
        exact h
      · next other =>
        obtain ⟨m, inner, same⟩ := Option.map_eq_some_iff.1 h
        obtain rfl := Nat.succ.inj same
        have some := (commentLength_bounds (ih inner)).1
        rw [if_neg, ih inner]
        · rfl
        · cases cs with
          | nil => simp at some
          | cons d cs => exact other

theorem quotedExtent_cons (quote c : Char) (cs : Source) :
    quotedExtent quote (c :: cs) =
      if c = quote then (1, true)
      else if c = '\n' then (0, false)
      else if c = '\\' then
        match cs with
        | [] => (0, false)
        | d :: ds =>
            if d = '\n' then (0, false)
            else ((quotedExtent quote ds).1 + 2, (quotedExtent quote ds).2)
      else ((quotedExtent quote cs).1 + 1, (quotedExtent quote cs).2) := by
  cases cs with
  | nil =>
      simp only [quotedExtent]
      split
      · rfl
      · by_cases newline : c = '\n' <;> by_cases slash : c = '\\' <;> simp [newline, slash]
  | cons d ds => rfl

theorem quotedExtent_le (quote : Char) (cs : Source) : (quotedExtent quote cs).1 ≤ cs.length := by
  fun_induction quotedExtent quote cs <;> simp_all

/-- A text up to the first quotation mark that no backslash stands before. -/
inductive Quoted (quote : Char) : Source → Prop where
  | close : Quoted quote [quote]
  | plain {c : Char} {cs : Source} (other : c ≠ quote) (line : c ≠ '\n') (slash : c ≠ '\\')
      (rest : Quoted quote cs) : Quoted quote (c :: cs)
  | escape {d : Char} {cs : Source} (other : '\\' ≠ quote) (line : d ≠ '\n')
      (rest : Quoted quote cs) : Quoted quote ('\\' :: d :: cs)

theorem Quoted.extent {quote : Char} (h : Quoted quote cs) (y : Source) :
    quotedExtent quote (cs ++ y) = (cs.length, true) := by
  induction h with
  | close => simp [quotedExtent_cons]
  | plain other line slash rest ih => simp [quotedExtent_cons, other, line, slash, ih]
  | escape other line rest ih => simp [quotedExtent_cons, other, line, ih]

theorem quoted_of_extent {quote : Char} {n : Nat} (h : quotedExtent quote cs = (n, true)) :
    ∃ body rest, cs = body ++ rest ∧ body.length = n ∧ Quoted quote body := by
  fun_induction quotedExtent quote cs generalizing n with
  | case1 => cases h
  | case2 =>
      cases h
      exact ⟨[quote], [], rfl, rfl, .close⟩
  | case3 | case4 => cases h
  | case5 d cs =>
      cases h
      exact ⟨[quote], d :: cs, rfl, rfl, .close⟩
  | case6 | case7 => cases h
  | case8 d cs line m closed inner other newline ih =>
      cases h
      obtain ⟨body, rest, rfl, length, quoted⟩ := ih inner
      exact ⟨_, rest, rfl, by simp [length], .escape other line quoted⟩
  | case9 c d cs other line slash m closed inner ih =>
      cases h
      obtain ⟨body, rest, same, length, quoted⟩ := ih inner
      exact ⟨c :: body, rest, by simp [same], by simp [length], .plain other line slash quoted⟩

/-- The extent of a closed quotation depends on nothing behind it. -/
theorem quotedExtent_append {quote : Char} (h : quotedExtent quote (cs ++ x) = (cs.length, true)) :
    quotedExtent quote (cs ++ y) = (cs.length, true) := by
  obtain ⟨body, rest, same, length, quoted⟩ := quoted_of_extent h
  obtain ⟨rfl, -⟩ := List.append_inj same length.symm
  exact quoted.extent y

theorem hexStringExtent_le (quote : Char) (cs : Source) :
    (hexStringExtent quote cs).1 ≤ cs.length := by
  have le := runLength_le (fun c => isHexDigit c || c = '_') cs
  simp only [hexStringExtent]
  by_cases head : (cs.drop (runLength (fun c => isHexDigit c || c = '_') cs)).head? = some quote
  · obtain ⟨rest, same⟩ := List.head?_eq_some_iff.1 head
    have := congrArg List.length same
    simp only [List.length_drop, List.length_cons] at this
    rw [if_pos head]
    simp only
    omega
  · rw [if_neg head]
    exact le

theorem hexStringExtent_append {quote : Char} (other : isHexDigit quote = false ∧ quote ≠ '_')
    (h : hexStringExtent quote (cs ++ x) = (cs.length, true)) :
    hexStringExtent quote (cs ++ y) = (cs.length, true) := by
  obtain ⟨run, rest, same, length, inside, -⟩ :=
    exists_run (fun c => isHexDigit c || c = '_') (cs ++ x)
  have stops : ∀ text : Source, runLength (fun c => isHexDigit c || c = '_')
      (run ++ quote :: text) = run.length := fun text =>
    runLength_eq_iff.2 ⟨inside, by simp [other]⟩
  rw [same] at length h
  simp only [hexStringExtent, ← length, List.drop_left] at h
  by_cases head : rest.head? = some quote
  · obtain ⟨rest, rfl⟩ := List.head?_eq_some_iff.1 head
    rw [if_pos head, Prod.mk.injEq] at h
    obtain ⟨rfl, -⟩ := List.append_inj (same.trans (List.append_cons run quote rest))
      (by simpa using h.1.symm)
    simp [hexStringExtent, stops]
  · rw [if_neg head] at h
    exact absurd (congrArg Prod.snd h) (by simp)

theorem exponentLength_le (cs : Source) : exponentLength cs ≤ cs.length := by
  cases cs with
  | nil => exact Nat.le_refl _
  | cons c cs =>
      have := runLength_le isDigit cs
      simp only [exponentLength, List.length_cons]
      split <;> omega

theorem numberLength_le (c : Char) (cs : Source) : numberLength c cs ≤ cs.length := by
  have digits := runLength_le isDigit cs
  have exponent := exponentLength_le (cs.drop (runLength isDigit cs))
  rw [List.length_drop] at exponent
  cases cs with
  | nil => exact Nat.le_refl _
  | cons d ds =>
      have hex := runLength_le isHexDigit ds
      rw [List.length_cons] at digits exponent
      simp only [numberLength, List.length_cons]
      split <;> omega
end Extents

section Numbers

theorem exponentLength_eq (cs : Source) :
    exponentLength cs =
      if (cs.head? = some 'e' ∨ cs.head? = some 'E') ∧ 0 < runLength isDigit cs.tail then
        runLength isDigit cs.tail + 1
      else 0 := by
  cases cs <;> simp [exponentLength]

theorem numberLength_eq (c : Char) (cs : Source) :
    numberLength c cs =
      if c = '0' ∧ (cs.head? = some 'x' ∨ cs.head? = some 'X') ∧ 0 < runLength isHexDigit cs.tail then
        runLength isHexDigit cs.tail + 1
      else runLength isDigit cs + exponentLength (cs.drop (runLength isDigit cs)) := by
  cases cs <;> simp [numberLength]

theorem numberLength_cons (c d : Char) (cs : Source) :
    numberLength c (d :: cs) =
      if c = '0' ∧ (d = 'x' ∨ d = 'X') ∧ 0 < runLength isHexDigit cs then
        runLength isHexDigit cs + 1
      else
        runLength isDigit (d :: cs) + exponentLength ((d :: cs).drop (runLength isDigit (d :: cs))) :=
  rfl

/-- Characters that go on with no token. -/
def stops : List Char := [' ', '\n', '.', ')', '(']

theorem not_isWordRest_of_stops : ∀ c ∈ stops, isWordRest c = false :=
  List.all_iff_forall_prop.1 (by decide)

theorem isWordRest_of_isHexDigit (h : isHexDigit c = true) : isWordRest c = true := by
  have low : 'f' ≤ 'z' := by decide
  have high : 'F' ≤ 'Z' := by decide
  simp only [isHexDigit, isWordRest, isWordStart, Bool.or_eq_true, Bool.and_eq_true,
    decide_eq_true_eq] at h ⊢
  rcases h with (digit | ⟨le, le'⟩) | ⟨le, le'⟩
  · exact .inr digit
  · exact .inl (.inl (.inl (.inl ⟨le, Nat.le_trans le' low⟩)))
  · exact .inl (.inl (.inl (.inr ⟨le, Nat.le_trans le' high⟩)))

/-- What follows a piece starts as it did, or with a character that goes on with
no token. -/
def Like (x y : Source) : Prop := y.head? = x.head? ∨ ∀ c ∈ y.head?, c ∈ stops

/-- What follows a number cannot make it longer behind a letter. -/
def Quiet (x y : Source) : Prop :=
  (∀ c ∈ y.head?, c ∉ ['x', 'X', 'e', 'E']) ∨ y.tail.head? = x.tail.head? ∨
    ∀ c ∈ y.tail.head?, isWordRest c = false

theorem Like.ends (like : Like x y) (quiet : ∀ c ∈ stops, p c = false)
    (h : ∀ c ∈ x.head?, p c = false) : ∀ c ∈ y.head?, p c = false := by
  intro c head
  rcases like with like | like
  · exact h c (like ▸ head)
  · exact quiet c (like c head)

/-- No run starts behind the letter of a number. -/
theorem runLength_tail (digits : ∀ c, p c = true → isWordRest c = true)
    (next : y.tail.head? = x.tail.head? ∨ ∀ c ∈ y.tail.head?, isWordRest c = false)
    (h : runLength p x.tail = 0) : runLength p y.tail = 0 := by
  rw [runLength_eq_zero] at h ⊢
  intro c head
  rcases next with next | next
  · exact h c (next ▸ head)
  · cases holds : p c with
    | false => rfl
    | true => exact absurd (digits c holds) (by simp [next c head])

theorem exponentLength_congr (like : Like x y) (quiet : Quiet x y) (h : exponentLength x = 0) :
    exponentLength y = 0 := by
  rw [exponentLength_eq] at h ⊢
  rw [if_neg]
  rintro ⟨letter, digits⟩
  rcases quiet with other | next
  · rcases letter with letter | letter <;> exact other _ letter (by simp)
  · have same : y.head? = x.head? := by
      rcases like with same | stop
      · exact same
      · rcases letter with letter | letter <;> exact absurd (stop _ letter) (by decide)
    rw [same] at letter
    have some : 0 < runLength isDigit x.tail := Nat.pos_of_ne_zero fun none =>
      Nat.ne_of_gt digits (runLength_tail (fun c digit => by simp [isWordRest, digit]) next none)
    rw [if_pos ⟨letter, some⟩] at h
    omega

theorem decimal_congr (cs : Source) (like : Like x y) (quiet : Quiet x y)
    (h : runLength isDigit (cs ++ x) + exponentLength ((cs ++ x).drop (runLength isDigit (cs ++ x))) =
      cs.length) :
    runLength isDigit (cs ++ y) + exponentLength ((cs ++ y).drop (runLength isDigit (cs ++ y))) =
      cs.length := by
  obtain ⟨run, rest, same, length, digits, ends⟩ := exists_run isDigit (cs ++ x)
  rw [← length, same, List.drop_left] at h
  rcases List.append_eq_append_iff.1 same with ⟨more, rfl, rfl⟩ | ⟨exponent, rfl, rfl⟩
  · -- All of it are digits.
    obtain rfl : more = [] := by
      rw [List.length_append] at h
      exact List.length_eq_zero_iff.1 (by omega)
    rw [List.append_nil] at digits h
    have run : runLength isDigit (cs ++ y) = cs.length :=
      runLength_eq_iff.2 ⟨digits, like.ends (List.all_iff_forall_prop.1 (by decide)) ends⟩
    rw [run, List.drop_left, exponentLength_congr like quiet (by simpa using h)]
    rfl
  · rw [List.length_append] at h
    cases exponent with
    | nil =>
        have none : exponentLength x = 0 := by simpa using h
        have length : runLength isDigit (run ++ [] ++ y) = (run ++ []).length :=
          runLength_eq_iff.2 ⟨by simpa using digits, like.ends (List.all_iff_forall_prop.1 (by decide)) ends⟩
        rw [length, List.drop_left, exponentLength_congr like quiet none]
        rfl
    | cons d ds =>
        have length : runLength isDigit (run ++ d :: ds ++ y) = run.length := by
          rw [List.append_assoc]
          exact runLength_eq_iff.2 ⟨digits, by simpa using ends⟩
        rw [length, List.append_assoc, List.drop_left, List.length_append]
        have inner := Nat.add_left_cancel h
        rw [exponentLength_eq] at inner ⊢
        split at inner
        · next letter =>
          have run : runLength isDigit (ds ++ x) = ds.length := Nat.succ.inj inner
          have run' := runLength_congr run
            (like.ends (List.all_iff_forall_prop.1 (by decide)) (runLength_eq_iff.1 run).2)
          have some : 0 < ds.length := run ▸ letter.2
          have tail : (d :: ds ++ y).tail = ds ++ y := rfl
          rw [tail, run', if_pos ⟨letter.1, some⟩]
          rfl
        · cases inner

/-- A number ends where it ended before what is like the text behind it. -/
theorem numberLength_congr (like : Like x y) (quiet : Quiet x y)
    (h : numberLength c (cs ++ x) = cs.length) : numberLength c (cs ++ y) = cs.length := by
  cases cs with
  | nil =>
      simp only [List.nil_append, List.length_nil, numberLength_eq] at h ⊢
      split at h
      · omega
      · next other =>
        rw [if_neg]
        · exact decimal_congr [] like quiet h
        · rintro ⟨zero, letter, digits⟩
          rcases quiet with quiet | next
          · rcases letter with letter | letter <;> exact quiet _ letter (by simp)
          · have same : y.head? = x.head? := by
              rcases like with same | stop
              · exact same
              · rcases letter with letter | letter <;> exact absurd (stop _ letter) (by decide)
            refine other ⟨zero, same ▸ letter, Nat.pos_of_ne_zero fun none => ?_⟩
            exact Nat.ne_of_gt digits (runLength_tail (fun _ => isWordRest_of_isHexDigit) next none)
  | cons d ds =>
      rw [List.cons_append, numberLength_cons] at h ⊢
      by_cases letter : c = '0' ∧ (d = 'x' ∨ d = 'X')
      · by_cases hex : 0 < runLength isHexDigit (ds ++ x)
        · rw [if_pos ⟨letter.1, letter.2, hex⟩] at h
          have run : runLength isHexDigit (ds ++ x) = ds.length := Nat.succ.inj h
          have run' := runLength_congr run
            (like.ends (List.all_iff_forall_prop.1 (by decide)) (runLength_eq_iff.1 run).2)
          rw [if_pos ⟨letter.1, letter.2, by rwa [run', ← run]⟩, run', List.length_cons]
        · -- The letter alone is no part of a number.
          rw [if_neg fun both => hex both.2.2] at h
          rcases letter.2 with rfl | rfl <;> cases h
      · rw [if_neg fun both => letter ⟨both.1, both.2.1⟩] at h ⊢
        exact decimal_congr (d :: ds) like quiet h

end Numbers

end SafeSubset.Token
