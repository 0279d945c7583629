import SafeSubset.Proofs.Grammar.Meaning

/-! The meaning of the language's phrases: nonterminals mean what they read.
What is read by a rule from parts that have a property has it if the rule keeps
it, at any depth. -/
namespace SafeSubset.Grammar

open Token (Spaced Holds lexemes width)

variable {source : Source} {α : Type}

/-- What a nonterminal reads in a source text. -/
def Symbol.meaning (source : Source) (n : Symbol) : Meaning n.Value where
  reads o a ts rest :=
    Symbol.split source n (lexemes o (ts ++ rest)) =
      some ⟨a, lexemes o ts, lexemes (o + width ts) rest⟩
  fails o xs := Symbol.split source n (lexemes o xs) = none

/-- A property of what the nonterminals read, with the tokens it is read off and
those behind it. -/
abbrev Property := (n : Symbol) → (offset : Nat) → n.Value → (taken rest : List Spaced) → Prop

/-- What a nonterminal reads with a property. -/
def Symbol.known (source : Source) (P : Property) (n : Symbol) : Meaning n.Value where
  reads o a ts rest := (n.meaning source).reads o a ts rest ∧ P n o a ts rest
  fails := (n.meaning source).fails

/-- What a phrase reads in a source text. -/
abbrev Phrase.Reads (source : Source) (r : Phrase α) (o : Nat) (a : α) (ts rest : List Spaced) :
    Prop :=
  (Rule.meaning (Symbol.meaning source) r).reads o a ts rest

abbrev Phrase.Fails (source : Source) (r : Phrase α) (o : Nat) (xs : List Spaced) : Prop :=
  (Rule.meaning (Symbol.meaning source) r).fails o xs

theorem Symbol.decides (n : Symbol) :
    (n.meaning source).Decides source (Symbol.split source n) :=
  ⟨fun _ h => h, fun _ h => h⟩

theorem Phrase.decides {r : Phrase α} (proper : r.proper) :
    (Rule.meaning (Symbol.meaning source) r).Decides source (Phrase.split source r) :=
  Rule.decides (Symbol.split_advance source) proper Symbol.decides

/-- A nonterminal reads what its rule reads. -/
theorem Symbol.reads_of_rule {n : Symbol} {o : Nat} {a : n.Value} {ts rest : List Spaced}
    (holds : Holds source o (ts ++ rest)) (h : Phrase.Reads source (rules n) o a ts rest) :
    (n.meaning source).reads o a ts rest := by
  show Symbol.split source n _ = _
  rw [Symbol.split_eq]
  exact (Phrase.decides (layered.proper n)).reads holds h

theorem Symbol.fails_of_rule {n : Symbol} {o : Nat} {xs : List Spaced}
    (holds : Holds source o xs) (h : Phrase.Fails source (rules n) o xs) :
    (n.meaning source).fails o xs := by
  show Symbol.split source n _ = _
  rw [Symbol.split_eq]
  exact (Phrase.decides (layered.proper n)).fails holds h

section Induction

variable {P : Property}

/-- What every rule keeps holds of all that the nonterminals read. The induction
is on the number of tokens from a place on, and at one place on the rank. -/
theorem Symbol.explains_known
    (step : ∀ n o a ts rest, Holds source o (ts ++ rest) →
      (Rule.meaning (Symbol.known source P) (rules n)).reads o a ts rest → P n o a ts rest)
    (n : Symbol) (o : Nat) (xs : List Spaced) (holds : Holds source o xs) :
    (n.known source P).Explains o xs (Symbol.split source n (lexemes o xs)) := by
  have rule : (Rule.meaning (Symbol.known source P) (rules n)).Explains o xs
      (Symbol.split source n (lexemes o xs)) := by
    rw [Symbol.split_eq]
    exact Rule.explains (Symbol.split_advance source) (layered.proper n) holds
      (fun m hm => explains_known step m o xs holds)
      fun m o' ys holds' shorter => explains_known step m o' ys holds'
  generalize found : Symbol.split source n (lexemes o xs) = x at rule
  cases rule with
  | fails => exact .fails found
  | @reads a ts rest same reading =>
      subst same
      exact .reads rfl ⟨found, step n o a ts rest holds reading⟩
  termination_by (xs.length, layered.rank n)
  decreasing_by
    · exact Prod.Lex.right _ (layered.lower n m hm)
    · exact Prod.Lex.left _ _ shorter

theorem Phrase.explains_known
    (step : ∀ n o a ts rest, Holds source o (ts ++ rest) →
      (Rule.meaning (Symbol.known source P) (rules n)).reads o a ts rest → P n o a ts rest)
    {r : Phrase α} (proper : r.proper) {o : Nat} {xs : List Spaced} (holds : Holds source o xs) :
    (Rule.meaning (Symbol.known source P) r).Explains o xs
      (Phrase.split source r (lexemes o xs)) :=
  Rule.explains (Symbol.split_advance source) proper holds
    (fun n _ => Symbol.explains_known step n o xs holds)
    fun n o' ys holds' _ => Symbol.explains_known step n o' ys holds'

/-- What every rule keeps holds of whatever a nonterminal reads. -/
theorem Symbol.known_of_reads
    (step : ∀ n o a ts rest, Holds source o (ts ++ rest) →
      (Rule.meaning (Symbol.known source P) (rules n)).reads o a ts rest → P n o a ts rest)
    {n : Symbol} {o : Nat} {a : n.Value} {ts rest : List Spaced} (holds : Holds source o (ts ++ rest))
    (h : (n.meaning source).reads o a ts rest) : P n o a ts rest := by
  have explains := Symbol.explains_known step n o (ts ++ rest) holds
  have h : Symbol.split source n (lexemes o (ts ++ rest)) = _ := h
  rw [h] at explains
  generalize found : some _ = x at explains
  cases explains with
  | fails => cases found
  | @reads b us vs same reading =>
      obtain ⟨rfl, taken, -⟩ := Reading.mk.inj (Option.some.inj found)
      have length := congrArg List.length taken
      simp only [Token.length_lexemes] at length
      obtain ⟨rfl, rfl⟩ := List.append_inj same length
      exact reading.2

/-- What every rule keeps is known of the parts of whatever a phrase reads to the end. -/
theorem Phrase.known_of_split
    (step : ∀ n o a ts rest, Holds source o (ts ++ rest) →
      (Rule.meaning (Symbol.known source P) (rules n)).reads o a ts rest → P n o a ts rest)
    {r : Phrase α} (proper : r.proper) {a : α} {ts : List Spaced} (holds : Holds source 0 ts)
    (h : Phrase.split source r (lexemes 0 ts) = some ⟨a, lexemes 0 ts, []⟩) :
    (Rule.meaning (Symbol.known source P) r).reads 0 a ts [] := by
  have explains := Phrase.explains_known step proper holds
  rw [h] at explains
  generalize found : some _ = x at explains
  cases explains with
  | fails => cases found
  | @reads b us rest same reading =>
      obtain ⟨rfl, -, none⟩ := Reading.mk.inj (Option.some.inj found)
      have none : rest = [] :=
        List.length_eq_zero_iff.1 (by rw [← Token.length_lexemes, ← none]; rfl)
      subst none
      rw [List.append_nil] at same
      subst same
      exact reading

/-- What is known of the parts may be forgotten. -/
theorem Phrase.reads_of_known {r : Phrase α} {o : Nat} {a : α} {ts rest : List Spaced}
    (h : (Rule.meaning (Symbol.known source P) r).reads o a ts rest) : Phrase.Reads source r o a ts rest := by
  have one : ∀ {n o a ts rest}, (Symbol.known source P n).reads o a ts rest →
      (n.meaning source).reads o a ts rest := fun h => h.1
  exact (Rule.meaning_mono one id r).1 h

end Induction

/-- A phrase that is read to the end takes all tokens. -/
theorem Phrase.readAll_iff {r : Phrase α} (proper : r.proper) {a : α} {ls : List Token.Lexeme} :
    r.readAll (.start source ls) = .ok a ↔ Phrase.split source r ls = some ⟨a, ls, []⟩ := by
  have agree := Phrase.read_eq proper (.start source ls) none
  unfold Phrase.readAll
  rcases found : r.read (.start source ls) none with ⟨_ | ⟨b, after⟩, register⟩ <;>
    rw [found] at agree
  · have missing : Phrase.split source r ls = none := Option.map_eq_none_iff.1 agree.symm
    simp [missing]
  · obtain ⟨⟨b', taken, rest⟩, reading, same⟩ := Option.map_eq_some_iff.1 agree.symm
    have reading : Phrase.split source r ls = some ⟨b', taken, rest⟩ := reading
    obtain ⟨of, -⟩ := Rule.split_advances (Symbol.split_advance source) reading
    have of : ls = taken ++ rest := of
    cases same
    rw [reading]
    cases rest with
    | nil => simp [of]
    | cons l rest => simp

end SafeSubset.Grammar
