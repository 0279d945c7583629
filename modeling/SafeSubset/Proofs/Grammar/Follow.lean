import SafeSubset.Proofs.Grammar.File

/-! Which tokens end an expression and which start one. A mark goes on with the
expressions of one level, if with any, so one that goes on with looser ones alone
ends all that bind more tightly; and nothing starts with a mark that neither
opens parentheses nor is a prefix operator. -/
namespace SafeSubset

open Token (Kind Mark Keyword Spaced Lexeme Holds width)

/-- The level of the expressions that go on with a mark, above all levels if none
does. -/
def Token.Mark.reach : Mark → Nat
  | openParen | openBracket | dot | plusPlus | minusMinus => 0
  | starStar => 2
  | star | slash | percent => 3
  | plus | minus => 4
  | shiftLeft | shiftRight => 5
  | amp => 6
  | caret => 7
  | pipe => 8
  | less | greater | lessEqual | greaterEqual => 9
  | equal | notEqual => 10
  | ampAmp => 11
  | pipePipe => 12
  | question => 13
  | assign | plusAssign | minusAssign | starAssign | slashAssign | percentAssign | pipeAssign
  | caretAssign | ampAssign | shiftLeftAssign | shiftRightAssign => 14
  | closeParen | openBrace | closeBrace | closeBracket | semicolon | comma | colon | arrow
  | tilde | bang => 15

/-- Whether an expression can start with a mark. -/
def Token.Mark.opens : Mark → Bool
  | openParen | bang | minus | tilde | plusPlus | minusMinus => true
  | _ => false

@[simp] theorem BinaryOp.reach_mark (op : BinaryOp) : op.mark.reach = op.level := by
  cases op <;> rfl

@[simp] theorem AssignOp.reach_mark (op : AssignOp) : op.mark.reach = 14 := by
  cases op <;> rfl

/-- The tokens go on with no expression of level `n` or tighter. -/
def Follow (n : Nat) (rest : List Spaced) : Prop :=
  ∀ t ∈ rest.head?, ∃ m, t.kind = .mark m ∧ n < m.reach

variable {n k : Nat} {t : Spaced} {ts xs rest : List Spaced} {o : Nat} {source : Source}

theorem follow_nil (n : Nat) : Follow n [] := by
  simp [Follow]

theorem follow_cons {m : Mark} (kind : t.kind = .mark m) (le : n < m.reach) (ts : List Spaced) :
    Follow n (t :: ts) := by
  intro u head
  obtain rfl := Option.some.inj head
  exact ⟨m, kind, le⟩

theorem Follow.mono (h : Follow n rest) (le : k ≤ n) : Follow k rest := by
  intro t head
  obtain ⟨m, kind, less⟩ := h t head
  exact ⟨m, kind, Nat.lt_of_le_of_lt le less⟩

/-- No mark that reaches so far stands there. -/
theorem Follow.ne (h : Follow n rest) {m : Mark} (le : m.reach ≤ n) :
    ∀ t ∈ rest.head?, t.kind ≠ .mark m := by
  intro t head same
  obtain ⟨m', kind, less⟩ := h t head
  obtain rfl := Kind.mark.inj (same.symm.trans kind)
  omega

/-- Before such tokens a type ends. -/
theorem Follow.ends (h : Follow 0 rest) (t : TypeName) : t.Ends rest := by
  refine ⟨?_, ?_, ?_⟩
  · rintro a b more rfl opens
    exact absurd opens (h.ne (m := .openBracket) (Nat.le_refl 0) a rfl)
  · rintro a n b more rfl opens
    exact absurd opens (h.ne (m := .openBracket) (Nat.le_refl 0) a rfl)
  · rintro s p - d n more rfl dot
    exact absurd dot (h.ne (m := .dot) (Nat.le_refl 0) d rfl)

/-- The tokens start no expression. -/
def Closes (xs : List Spaced) : Prop := ∀ t ∈ xs.head?, ∃ m, t.kind = .mark m ∧ m.opens = false

theorem closes_cons {m : Mark} (kind : t.kind = .mark m) (closing : m.opens = false)
    (ts : List Spaced) : Closes (t :: ts) := by
  intro u head
  obtain rfl := Option.some.inj head
  exact ⟨m, kind, closing⟩

theorem Closes.ne (h : Closes xs) {m : Mark} (opens : m.opens = true) :
    ∀ t ∈ xs.head?, t.kind ≠ .mark m := by
  intro t head same
  obtain ⟨m', kind, closing⟩ := h t head
  obtain rfl := Kind.mark.inj (same.symm.trans kind)
  exact Bool.false_ne_true (closing.symm.trans opens)

theorem Closes.ne_of (h : Closes xs) {kind : Kind} (other : ∀ m, kind ≠ .mark m) :
    ∀ t ∈ xs.head?, t.kind ≠ kind := by
  intro t head same
  obtain ⟨m, mark, -⟩ := h t head
  exact other m (same.symm.trans mark)

namespace Grammar

section Combinators

variable {N : Type} {R : N → Type} {call : (n : N) → Meaning (R n)} {α β : Type}

theorem Rule.fails_between_of {kind kind' : Kind} {r : Rule R α}
    (other : ∀ t ∈ xs.head?, t.kind ≠ kind) :
    (meaning call (token kind *> r <* token kind')).fails o xs :=
  fails_seqLeft.2 (.inl (fails_single.2 (.inl other)))

/-- None of the tokens that stand for a value is there. -/
theorem Rule.fails_oneOf_of {first : Kind × β} {others : List (Kind × β)}
    (other : ∀ t ∈ xs.head?, ∀ p ∈ first :: others, t.kind ≠ p.1) :
    (meaning call (oneOf first others)).fails o xs := by
  refine fails_oneOf.2 fun t head => List.lookup_eq_none_iff.2 fun p member => ?_
  exact bne_iff_ne.2 (other t head p member)

end Combinators

namespace Phrase

variable {call : (n : Symbol) → Meaning n.Value} {β : Type}

theorem fails_markOf {first : Mark × β} {others : List (Mark × β)}
    (other : ∀ t ∈ xs.head?, ∀ p ∈ first :: others, t.kind ≠ .mark p.1) :
    (Rule.meaning call (markOf first others)).fails o xs := by
  refine Rule.fails_oneOf_of fun t head p member => ?_
  obtain rfl | member := List.mem_cons.1 member
  · exact other t head first List.mem_cons_self
  · obtain ⟨q, inside, rfl⟩ := List.mem_map.1 member
    exact other t head q (List.mem_cons_of_mem _ inside)

section Follow

theorem fails_suffix (h : Follow 0 rest) : (Rule.meaning call suffix).fails o rest := by
  refine Rule.fails_orElse.2 ⟨?_, Rule.fails_orElse.2 ⟨?_, Rule.fails_orElse.2 ⟨?_, ?_⟩⟩⟩
  · exact Rule.fails_between_of (h.ne (Nat.le_refl 0))
  · exact Rule.fails_fmap.2 (Rule.fails_single.2 (.inl (h.ne (Nat.le_refl 0))))
  · exact Rule.fails_fmap.2 (Rule.fails_between_of (h.ne (Nat.le_refl 0)))
  · refine fails_markOf fun t head p member => ?_
    simp only [List.mem_cons, List.not_mem_nil, or_false] at member
    rcases member with rfl | rfl
    · exact h.ne (m := .plusPlus) (Nat.le_refl 0) t head
    · exact h.ne (m := .minusMinus) (Nat.le_refl 0) t head

/-- The operators of a level do not follow, with an operand behind. -/
theorem fails_level {level : Level} (found : levels[k]? = some level) (h : Follow (k + 2) rest)
    {r : Phrase β} : (Rule.meaning call (.seq (markOf level.1 level.2) r)).fails o rest := by
  refine Rule.fails_seq.2 (.inl (fails_markOf fun t head p member => ?_))
  obtain ⟨mark, number⟩ := mem_levels found p member
  refine h.ne ?_ t head
  rw [mark, BinaryOp.reach_mark]
  exact Nat.le_of_eq number

theorem fails_branches (h : Follow 13 rest) {r : Phrase β} {s : Phrase β} :
    (Rule.meaning call (.seq (mark .question *> r) s)).fails o rest :=
  Rule.fails_seq.2 (.inl (Rule.fails_single.2 (.inl (h.ne (Nat.le_refl 13)))))

theorem assignOperators : ∀ p ∈ ([(.assign, .assign), (.plusAssign, .add), (.minusAssign, .subtract),
    (.starAssign, .multiply), (.slashAssign, .divide), (.percentAssign, .modulo),
    (.pipeAssign, .bitOr), (.caretAssign, .bitXor), (.ampAssign, .bitAnd),
    (.shiftLeftAssign, .shiftLeft), (.shiftRightAssign, .shiftRight)] : List (Mark × AssignOp)),
    p.1.reach = 14 := by
  decide

theorem fails_assignment (h : Follow 14 rest) {r : Phrase β} :
    (Rule.meaning call (.seq assignOperator r)).fails o rest := by
  refine Rule.fails_seq.2 (.inl (fails_markOf fun t head p member => h.ne ?_ t head))
  exact Nat.le_of_eq (assignOperators p member)

end Follow

section Closes

section Atoms

theorem fails_number (other : ∀ t ∈ xs.head?, t.kind ≠ .number) :
    (Rule.meaning call number).fails o xs :=
  Rule.fails_located.2 (Rule.fails_verbatim.2 (Rule.fails_seq.2 (.inl (Rule.fails_token.2 other))))

theorem fails_string (other : ∀ t ∈ xs.head?, t.kind ≠ .string) :
    (Rule.meaning call string).fails o xs :=
  Rule.fails_located.2 (Rule.fails_token.2 other)

theorem fails_boolean (yes : ∀ t ∈ xs.head?, t.kind ≠ .keyword .true)
    (no : ∀ t ∈ xs.head?, t.kind ≠ .keyword .false) :
    (Rule.meaning call boolean).fails o xs := by
  refine Rule.fails_located.2 (Rule.fails_oneOf_of fun t head p member => ?_)
  simp only [List.map, List.mem_cons, List.not_mem_nil, or_false] at member
  rcases member with rfl | rfl
  · exact yes t head
  · exact no t head

theorem fails_creation (other : ∀ t ∈ xs.head?, t.kind ≠ .keyword .new) :
    (Rule.meaning call creation).fails o xs :=
  Rule.fails_located.2 (Rule.fails_single.2 (.inl other))

theorem fails_payableName (other : ∀ t ∈ xs.head?, t.kind ≠ .keyword .payable) :
    (Rule.meaning call payableName).fails o xs :=
  Rule.fails_located.2 (Rule.fails_token.2 other)

theorem fails_elementaryName
    (other : ∀ t ∈ xs.head?, t.kind = .identifier → Ty.ofName? (String.ofList t.chars) = none) :
    (Rule.meaning call elementaryName).fails o xs :=
  Rule.fails_located.2 (fails_elementaryWord.2 other)

theorem fails_name (other : ∀ t ∈ xs.head?, t.kind ≠ .identifier) :
    (Rule.meaning call name).fails o xs :=
  Rule.fails_fmap.2 (fails_ident.2 other)

end Atoms

theorem fails_atom (h : Closes xs) : (Rule.meaning call atom).fails o xs := by
  have other : ∀ {kind : Kind}, (∀ m, kind ≠ .mark m) → ∀ t ∈ xs.head?, t.kind ≠ kind :=
    fun no => h.ne_of no
  refine Rule.fails_orElse.2 ⟨fails_number (other nofun), ?_⟩
  refine Rule.fails_orElse.2 ⟨fails_string (other nofun), ?_⟩
  refine Rule.fails_orElse.2 ⟨fails_boolean (other nofun) (other nofun), ?_⟩
  refine Rule.fails_orElse.2 ⟨fails_creation (other nofun), ?_⟩
  refine Rule.fails_orElse.2 ⟨fails_payableName (other nofun), ?_⟩
  refine Rule.fails_orElse.2 ⟨fails_elementaryName fun t head kind => ?_, ?_⟩
  · exact absurd kind (other (fun _ => Kind.noConfusion) t head)
  refine Rule.fails_orElse.2 ⟨fails_name (other nofun), ?_⟩
  exact Rule.fails_located.2 (Rule.fails_between_of (h.ne rfl))

theorem fails_unaryOperator (other : ∀ t ∈ xs.head?, ∀ op : UnaryOp, t.kind ≠ op.kind) :
    (Rule.meaning call unaryOperator).fails o xs := by
  refine Rule.fails_orElse.2 ⟨fails_markOf fun t head p member => ?_, ?_⟩
  · simp only [List.mem_cons, List.not_mem_nil, or_false] at member
    rcases member with rfl | rfl | rfl | rfl | rfl
    · exact other t head .not
    · exact other t head .negate
    · exact other t head .bitNot
    · exact other t head .increment
    · exact other t head .decrement
  · exact Rule.fails_fmap.2 (Rule.fails_token.2 fun t head => other t head .delete)

theorem Closes.unary (h : Closes xs) : ∀ t ∈ xs.head?, ∀ op : UnaryOp, t.kind ≠ op.kind := by
  intro t head op
  cases op with
  | delete => exact h.ne_of (fun _ => Kind.noConfusion) t head
  | _ => exact h.ne rfl t head

theorem fails_operand (holds : Holds source o xs) (h : Closes xs) : Phrase.Fails source operand o xs :=
  Symbol.fails_of_rule holds (Rule.fails_orElse.2
    ⟨Rule.fails_located.2 (Rule.fails_seq.2 (.inl (fails_unaryOperator (Closes.unary h)))),
      Rule.fails_chain.2 (fails_atom h)⟩)

theorem fails_tier (operand : (Rule.meaning call operand).fails o xs) (le : n ≤ levels.length) :
    (Rule.meaning call (tier n)).fails o xs := by
  induction n with
  | zero => exact operand
  | succ n ih =>
      have found : levels[n]? = some levels[n] := List.getElem?_eq_getElem le
      rw [tier_succ found]
      exact Rule.fails_chain.2 (ih (by omega))

/-- No expression starts with what does not open one. -/
theorem fails_expression (holds : Holds source o xs) (h : Closes xs) :
    Phrase.Fails source expression o xs := by
  have first : Phrase.Fails source disjunction o xs :=
    fails_tier (n := 11) (fails_operand holds h) (by decide)
  have second : Phrase.Fails source conditional o xs :=
    Rule.fails_located.2 (Rule.fails_seq.2 (.inl first))
  have third : Phrase.Fails source expressionRule o xs :=
    Rule.fails_located.2 (Rule.fails_seq.2 (.inl second))
  exact Symbol.fails_of_rule (n := .expression) holds third

end Closes

end Phrase
end Grammar
end SafeSubset
