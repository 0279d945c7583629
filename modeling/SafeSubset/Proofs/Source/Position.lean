import SafeSubset.Proofs.Source.Bytes
import SafeSubset.Source.Position

/-! Line and column as another form of an offset. Between two characters the order of
positions is that of offsets, and the offset is found again by going past all lines before
and then past the characters of the line. -/
namespace SafeSubset

namespace Position

/-- The order of positions: by line, and in a line by column. -/
def Before (p q : Position) : Prop := p.line < q.line ∨ p.line = q.line ∧ p.column < q.column

instance (p q : Position) : Decidable (p.Before q) := inferInstanceAs (Decidable (_ ∨ _))

variable {p q r : Position}

theorem Before.irrefl (p : Position) : ¬ p.Before p := by
  simp [Before]

theorem Before.trans (first : p.Before q) (second : q.Before r) : p.Before r := by
  simp only [Before] at *
  omega

theorem before_after (p : Position) (c : Char) : p.Before (p.after c) := by
  by_cases newline : c = '\n' <;> simp [after, Before, newline]

theorem before_foldl {cs : Source} (some : cs ≠ []) : p.Before (cs.foldl after p) := by
  induction cs generalizing p with
  | nil => contradiction
  | cons c cs ih =>
      rw [List.foldl_cons]
      by_cases last : cs = []
      · subst last
        exact p.before_after c
      · exact (p.before_after c).trans (ih last)

/-- Characters on one line move the column alone. -/
theorem foldl_of_line {cs : Source} (line : '\n' ∉ cs) :
    cs.foldl after p = ⟨p.line, p.column + cs.length⟩ := by
  induction cs generalizing p with
  | nil => rfl
  | cons c cs ih =>
      obtain ⟨other, rest⟩ := List.ne_and_not_mem_of_not_mem_cons line
      rw [List.foldl_cons, ih rest, after, if_neg (Ne.symm other), List.length_cons]
      simp only [Position.mk.injEq, true_and]
      omega

end Position

namespace Source

/-- The offset falls between two characters, or is one of the ends. -/
def Boundary (source : Source) (offset : Nat) : Prop :=
  ∃ before behind, source = before ++ behind ∧ byteLength before = offset

/-- The text behind its first lines, `none` where there are not as many newlines. -/
def behindLines : Nat → Source → Option Source
  | 0, cs => some cs
  | _ + 1, [] => none
  | n + 1, c :: cs => if c = '\n' then behindLines n cs else behindLines (n + 1) cs

/-- The offset of a position: behind the newlines of the lines before it, and behind the
characters before it on its line, of which none is a newline. -/
def offset? (source : Source) : Position → Option Nat
  | ⟨line + 1, column + 1⟩ =>
      (behindLines line source).bind fun rest =>
        if column ≤ rest.length ∧ '\n' ∉ rest.take column then
          some (byteLength source - byteLength (rest.drop column))
        else none
  | _ => none

/-- A text of so many lines, each with the newline that ends it. -/
inductive Lines : Nat → Source → Prop where
  | none : Lines 0 []
  | line {n : Nat} {body rest : Source} (inside : '\n' ∉ body) (tail : Lines n rest) :
      Lines (n + 1) (body ++ '\n' :: rest)

variable {source x y rest : Source} {n : Nat} {p : Position} {a b : Nat}

section Lines

/-- A character in front of whole lines belongs to the first of them, or is one itself. -/
theorem Lines.cons {c : Char} (lines : Lines n x) :
    if c = '\n' then Lines (n + 1) (c :: x) else n ≠ 0 → Lines n (c :: x) := by
  split
  · next newline =>
    subst newline
    exact @Lines.line n [] x List.not_mem_nil lines
  · next other =>
    intro some
    cases lines with
    | none => contradiction
    | @line n body rest inside tail =>
        have apart : '\n' ∉ c :: body :=
          List.not_mem_cons_of_ne_of_not_mem (Ne.symm other) inside
        exact .line apart tail

theorem behindLines_append (lines : Lines n x) (rest : Source) :
    behindLines n (x ++ rest) = some rest := by
  induction lines with
  | none => cases rest <;> rfl
  | @line n body tail inside _ ih =>
      induction body with
      | nil => simpa [behindLines] using ih
      | cons c body within =>
          obtain ⟨other, inside⟩ := List.ne_and_not_mem_of_not_mem_cons inside
          simpa [behindLines, Ne.symm other] using within inside

theorem behindLines_eq_some :
    behindLines n source = some rest ↔ ∃ x, source = x ++ rest ∧ Lines n x := by
  constructor
  · intro found
    induction source generalizing n with
    | nil =>
        cases n with
        | zero => exact ⟨[], by simpa [behindLines] using found, .none⟩
        | succ n => cases found
    | cons c cs ih =>
        cases n with
        | zero => exact ⟨[], by simpa [behindLines] using found, .none⟩
        | succ n =>
            rw [behindLines] at found
            split at found
            · next newline =>
              obtain ⟨x, rfl, lines⟩ := ih found
              have more := lines.cons (c := c)
              rw [if_pos newline] at more
              exact ⟨c :: x, rfl, more⟩
            · next other =>
              obtain ⟨x, rfl, lines⟩ := ih found
              have more := lines.cons (c := c)
              rw [if_neg other] at more
              exact ⟨c :: x, rfl, more (Nat.succ_ne_zero n)⟩
  · rintro ⟨x, rfl, lines⟩
    exact behindLines_append lines rest

/-- Every text is some lines and the beginning of another. -/
theorem exists_lines (x : Source) :
    ∃ n lines tail, x = lines ++ tail ∧ Lines n lines ∧ '\n' ∉ tail := by
  induction x with
  | nil => exact ⟨0, [], [], rfl, .none, List.not_mem_nil⟩
  | cons c x ih =>
      obtain ⟨n, lines, tail, rfl, all, line⟩ := ih
      have more := all.cons (c := c)
      split at more
      · exact ⟨n + 1, c :: lines, tail, rfl, more, line⟩
      · next other =>
        cases all with
        | none =>
            have inside := List.not_mem_cons_of_ne_of_not_mem (Ne.symm other) line
            exact ⟨0, [], c :: tail, rfl, .none, inside⟩
        | line inside rest => exact ⟨_, _, tail, rfl, more (Nat.succ_ne_zero _), line⟩

/-- Behind whole lines a new one begins. -/
theorem foldl_lines (lines : Lines n x) (l : Nat) :
    x.foldl Position.after ⟨l, 1⟩ = ⟨l + n, 1⟩ := by
  induction lines generalizing l with
  | none => rfl
  | @line n body rest inside _ ih =>
      rw [List.foldl_append, Position.foldl_of_line inside, List.foldl_cons, Position.after,
        if_pos rfl, ih]
      simp only [Position.mk.injEq, and_true]
      omega

theorem foldl_split (lines : Lines n x) (line : '\n' ∉ y) :
    (x ++ y).foldl Position.after Position.origin = ⟨n + 1, y.length + 1⟩ := by
  rw [List.foldl_append, Position.origin, foldl_lines lines, Position.foldl_of_line line]
  simp only [Nat.add_comm]

end Lines

section Offsets

theorem before_append (x y : Source) : before (x ++ y) (byteLength x) = x := by
  have inside : min (byteLength x) (byteLength (x ++ y)) = byteLength x := by
    rw [byteLength_append]
    omega
  rw [before, inside, takeBytes_append]
  rfl

theorem position_append (x y : Source) :
    position (x ++ y) (byteLength x) = x.foldl Position.after Position.origin := by
  rw [position, before_append]

/-- A longer text before an offset makes for a later position. -/
theorem position_before (first : source.Boundary a) (second : source.Boundary b) (less : a < b) :
    (source.position a).Before (source.position b) := by
  obtain ⟨x, y, rfl, rfl⟩ := first
  obtain ⟨x', y', same, rfl⟩ := second
  rw [position_append, same, position_append]
  rcases List.append_eq_append_iff.1 same with ⟨more, rfl, -⟩ | ⟨more, rfl, -⟩
  · rw [List.foldl_append]
    apply Position.before_foldl
    rintro rfl
    simp at less
  · rw [byteLength_append] at less
    omega

theorem lt_iff_before (first : source.Boundary a) (second : source.Boundary b) :
    a < b ↔ (source.position a).Before (source.position b) := by
  refine ⟨position_before first second, fun before => ?_⟩
  rcases Nat.lt_trichotomy a b with less | rfl | more
  · exact less
  · exact absurd before (Position.Before.irrefl _)
  · exact absurd (before.trans (position_before second first more)) (Position.Before.irrefl _)

theorem takeBytes_boundary {offset : Nat} (taken : takeBytes offset source = some x) :
    ∃ y, source = x ++ y ∧ byteLength x = offset := by
  induction source generalizing offset x with
  | nil =>
      cases offset with
      | zero => exact ⟨[], by simpa [takeBytes] using taken.symm, by simp_all [takeBytes]⟩
      | succ n => cases taken
  | cons c cs ih =>
      cases offset with
      | zero =>
          obtain rfl : [] = x := Option.some.inj taken
          exact ⟨c :: cs, rfl, rfl⟩
      | succ n =>
          rw [takeBytes] at taken
          split at taken
          · obtain ⟨x, inner, rfl⟩ := Option.map_eq_some_iff.1 taken
            obtain ⟨y, rfl, length⟩ := ih inner
            exact ⟨y, rfl, by rw [byteLength_cons, length]; omega⟩
          · cases taken

/-- An offset that is no place of the text stands for its end. -/
theorem position_of_not_boundary {offset : Nat}
    (outside : byteLength source ≤ offset ∨ ¬ source.Boundary offset) :
    source.position offset = source.position (byteLength source) := by
  have whole : before source (byteLength source) = source := by
    simpa using before_append source []
  rw [position, position, whole]
  congr 1
  rcases Nat.le_total (byteLength source) offset with beyond | inside
  · rw [before, Nat.min_eq_right beyond]
    simpa [before] using whole
  · have cut : ∀ x, takeBytes offset source = some x → x = source := by
      intro x taken
      obtain ⟨y, same, length⟩ := takeBytes_boundary taken
      have beyond := outside.resolve_right fun other => other ⟨x, y, same, length⟩
      cases y with
      | nil => simpa using same.symm
      | cons c y =>
          have := Char.utf8Size_pos c
          rw [same, byteLength_append, byteLength_cons] at beyond
          omega
    rw [before, Nat.min_eq_left inside]
    cases taken : takeBytes offset source with
    | none => rfl
    | some x => exact cut x taken

end Offsets

/-- The offset of a position is the place whose position it is. -/
theorem offset_eq_some : source.offset? p = some a ↔ source.Boundary a ∧ source.position a = p := by
  obtain ⟨line, column⟩ := p
  constructor
  · intro found
    cases line with
    | zero => cases found
    | succ line =>
    cases column with
    | zero => cases found
    | succ column =>
      obtain ⟨rest, behind, found⟩ := Option.bind_eq_some_iff.1 found
      obtain ⟨lines, rfl, all⟩ := behindLines_eq_some.1 behind
      split at found
      · next inside =>
        obtain ⟨le, same⟩ := inside
        have split : lines ++ rest = (lines ++ rest.take column) ++ rest.drop column := by
          rw [List.append_assoc, List.take_append_drop]
        have length : byteLength (lines ++ rest.take column) = a := by
          have whole := congrArg byteLength split
          rw [byteLength_append (lines ++ _)] at whole
          have found := Option.some.inj found
          omega
        refine ⟨⟨_, _, split, length⟩, ?_⟩
        rw [split, ← length, position_append, foldl_split all same, List.length_take_of_le le]
      · cases found
  · rintro ⟨⟨x, y, rfl, rfl⟩, same⟩
    obtain ⟨n, lines, tail, rfl, all, inside⟩ := exists_lines x
    rw [position_append, foldl_split all inside] at same
    cases same
    have behind : behindLines n ((lines ++ tail) ++ y) = some (tail ++ y) := by
      rw [List.append_assoc]
      exact behindLines_append all _
    simp only [offset?, behind, Option.bind_some, List.take_left, List.drop_left]
    rw [if_pos ⟨by simp, inside⟩, byteLength_append _ y, Nat.add_sub_cancel]

/-- The positions of two places of a text are in the order of their offsets. From the position
of a place its offset is found again, past the newlines of the lines before and then past the
characters before it on its line, none of which is a newline; from any other position nothing
is found. An offset that is no place of the text, as every one beyond its end, has the position
of the end. -/
theorem position_encodes (first : source.Boundary a) (second : source.Boundary b) :
    (a < b ↔ (source.position a).Before (source.position b)) ∧
    source.offset? (source.position a) = some a ∧
    (∀ p c, source.offset? p = some c ↔ source.Boundary c ∧ source.position c = p) ∧
    ∀ c, byteLength source ≤ c ∨ ¬ source.Boundary c →
      source.position c = source.position (byteLength source) :=
  ⟨lt_iff_before first second, offset_eq_some.2 ⟨first, rfl⟩, fun _ _ => offset_eq_some,
    fun _ => position_of_not_boundary⟩

/-- A text with an empty line, a letter of two bytes, and a newline at its end. -/
def accented : Source := "a\n\né\nb\n".toList

theorem position_encodes_accented : accented.Boundary 3 ∧ accented.Boundary 5 ∧
    accented.position 3 = ⟨3, 1⟩ ∧ accented.position 5 = ⟨3, 2⟩ ∧
    (accented.position 3).Before (accented.position 5) ∧ accented.offset? ⟨3, 1⟩ = some 3 ∧
    accented.offset? ⟨3, 2⟩ = some 5 ∧ accented.position 100 = ⟨5, 1⟩ := by
  have three : accented.Boundary 3 := ⟨accented.take 3, accented.drop 3, by decide, by decide⟩
  have five : accented.Boundary 5 := ⟨accented.take 4, accented.drop 4, by decide, by decide⟩
  have place : accented.position 3 = ⟨3, 1⟩ ∧ accented.position 5 = ⟨3, 2⟩ ∧
      accented.position (byteLength accented) = ⟨5, 1⟩ := by decide
  obtain ⟨order, found, back, beyond⟩ := position_encodes three five
  refine ⟨three, five, place.1, place.2.1, order.1 (by decide), place.1 ▸ found,
    (back _ _).2 ⟨five, place.2.1⟩, ?_⟩
  exact (beyond 100 (.inl (by decide))).trans place.2.2

end Source
end SafeSubset
