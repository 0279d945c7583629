import SafeSubset.Proofs.Grammar.Combinators
import SafeSubset.Proofs.Token.Twins

/-! Rules are blind to trivia. What a rule reads off some tokens it reads off their twins
as well, with the same value but for the places in it, and where it fails it fails at the
twins. To say so of a grammar, its nonterminals are given a meaning at each depth, which
no source text has a part in. -/
namespace SafeSubset

/-- A token without its place. -/
def Token.Lexeme.stripped (l : Token.Lexeme) : Token.Lexeme := { l with span := .point 0 }

namespace Grammar

open Token (Kind Lexeme Spaced Twins Holds lexemes width extent core)

variable {N : Type} {R : N → Type} {α β : Type}

/-- What is read, as far as `f` shows it, and whether anything is read are the same for
tokens and their twins, wherever these stand. -/
structure Meaning.Blind (m : Meaning α) (f : α → β) : Prop where
  reads : ∀ {o a ts rest xs}, m.reads o a ts rest → Twins (ts ++ rest) xs → ∀ o',
    ∃ a' ts' rest', xs = ts' ++ rest' ∧ ts'.length = ts.length ∧ m.reads o' a' ts' rest' ∧ f a' = f a
  fails : ∀ {o xs xs'}, m.fails o xs → Twins xs xs' → ∀ o', m.fails o' xs'

namespace Meaning

theorem one_blind {p : Nat → Spaced → α → Prop} {f : α → β}
    (each : ∀ {o t a t'}, p o t a → t.word = t'.word → ∀ o', ∃ a', p o' t' a' ∧ f a' = f a) :
    (one p).Blind f where
  reads := by
    rintro o a _ rest xs ⟨t, rfl, holds⟩ twins o'
    obtain ⟨us', rest', rfl, left, -⟩ := twins.append
    obtain ⟨t', rfl⟩ := List.length_eq_one_iff.1 left.length.symm
    have word : t.word = t'.word := List.head_eq_of_cons_eq left.words
    obtain ⟨a', holds', same⟩ := each holds word o'
    exact ⟨a', [t'], rest', rfl, rfl, ⟨t', rfl, holds'⟩, same⟩
  fails := by
    intro o xs xs' failure twins o' t' head a' holds
    cases xs' with
    | nil => cases head
    | cons t xs' =>
        obtain rfl := Option.some.inj head
        obtain ⟨u, us, rfl⟩ := List.exists_cons_of_length_eq_add_one twins.length
        have word : u.word = t.word := List.head_eq_of_cons_eq twins.words
        obtain ⟨a, here, -⟩ := each holds word.symm o
        exact failure u rfl a here

theorem Blind.repeats {m : Meaning α} {f : α → β} (blind : m.Blind f) {o : Nat} {as : List α}
    {ts rest xs : List Spaced} (h : m.Repeats o as ts rest) (twins : Twins (ts ++ rest) xs) (o' : Nat) :
    ∃ as' ts' rest', xs = ts' ++ rest' ∧ ts'.length = ts.length ∧ m.Repeats o' as' ts' rest' ∧
      as'.map f = as.map f := by
  induction as generalizing o ts xs o' with
  | nil =>
      obtain ⟨rfl, failure⟩ := h
      exact ⟨[], [], xs, rfl, rfl, ⟨rfl, blind.fails failure twins o'⟩, rfl⟩
  | cons a as ih =>
      obtain ⟨us, vs, rfl, first, others⟩ := h
      rw [List.append_assoc] at twins
      obtain ⟨a', us', ys, rfl, length, first', same⟩ := blind.reads first twins o'
      have behind := (twins.split length).2
      obtain ⟨as', vs', rest', rfl, length', others', same'⟩ := ih others behind (o' + width us')
      refine ⟨a' :: as', us' ++ vs', rest', (List.append_assoc ..).symm, ?_, ?_, ?_⟩
      · rw [List.length_append, List.length_append, length, length']
      · exact ⟨us', vs', rfl, first', others'⟩
      · rw [List.map_cons, List.map_cons, same, same']

end Meaning

namespace Rule

section Combinators

variable {call : (n : N) → Meaning (R n)} {r : Rule R α} {s : Rule R β} {f : α → α} {g : β → β}

/-- A rule that reads the same of twins, as far as `f` shows it. -/
abbrev Blind (call : (n : N) → Meaning (R n)) (r : Rule R α) (f : α → α) : Prop :=
  (meaning call r).Blind f

theorem Blind.token {kind : Kind} : Blind call (token kind) Lexeme.stripped :=
  Meaning.one_blind fun {o t l t'} h word o' => by
    obtain ⟨own, rfl⟩ := h
    obtain ⟨kinds, texts⟩ := Prod.mk.inj word
    refine ⟨t'.lexeme o', ⟨kinds ▸ own, rfl⟩, ?_⟩
    simp only [Lexeme.stripped, Spaced.lexeme, kinds, texts]

theorem Blind.except {kind : Kind} : Blind call (except kind) Lexeme.stripped :=
  Meaning.one_blind fun {o t l t'} h word o' => by
    obtain ⟨other, rfl⟩ := h
    obtain ⟨kinds, texts⟩ := Prod.mk.inj word
    refine ⟨t'.lexeme o', ⟨kinds ▸ other, rfl⟩, ?_⟩
    simp only [Lexeme.stripped, Spaced.lexeme, kinds, texts]

theorem Blind.word {meaning : String → Except Misfit α} : Blind call (word meaning) id :=
  Meaning.one_blind fun {o t a t'} h word o' => by
    obtain ⟨kinds, texts⟩ := Prod.mk.inj word
    exact ⟨a, ⟨kinds ▸ h.1, texts ▸ h.2⟩, rfl⟩

/-- What is the same in all respects is the same in some. -/
theorem Blind.same (blind : Blind call r id) : Blind call r f where
  reads := by
    intro o a ts rest xs reading twins o'
    obtain ⟨a', ts', rest', split, length, reading', rfl⟩ := blind.reads reading twins o'
    exact ⟨_, ts', rest', split, length, reading', rfl⟩
  fails := blind.fails

theorem Blind.fmap {h : α → β} (blind : Blind call r f) (same : ∀ a, g (h a) = h (f a)) :
    Blind call (h <$> r) g where
  reads := by
    rintro o _ ts rest xs ⟨a, rfl, reading⟩ twins o'
    obtain ⟨a', ts', rest', split, length, reading', alike⟩ := blind.reads reading twins o'
    exact ⟨h a', ts', rest', split, length, ⟨a', rfl, reading'⟩, by rw [same, same, alike]⟩
  fails := blind.fails

theorem Blind.seq (first : Blind call r f) (second : Blind call s g) :
    Blind call (.seq r s) (Prod.map f g) where
  reads := by
    rintro o ⟨a, b⟩ _ rest xs ⟨us, vs, rfl, reading, reading'⟩ twins o'
    rw [List.append_assoc] at twins
    obtain ⟨a', us', ys, rfl, length, here, alike⟩ := first.reads reading twins o'
    have behind := (twins.split length).2
    obtain ⟨b', vs', rest', rfl, length', there, alike'⟩ :=
      second.reads reading' behind (o' + width us')
    refine ⟨(a', b'), us' ++ vs', rest', (List.append_assoc ..).symm, ?_, ⟨us', vs', rfl, here, there⟩, ?_⟩
    · rw [List.length_append, List.length_append, length, length']
    · rw [Prod.map_apply, Prod.map_apply, alike, alike']
  fails := by
    rintro o _ xs' (failure | ⟨a, us, vs, rfl, reading, failure⟩) twins o'
    · exact .inl (first.fails failure twins o')
    · obtain ⟨a', us', vs', rfl, length, here, -⟩ := first.reads reading twins o'
      have behind := (twins.split length).2
      exact .inr ⟨a', us', vs', rfl, here, second.fails failure behind (o' + width us')⟩

theorem Blind.right (first : Blind call r f) (second : Blind call s g) : Blind call (r *> s) g :=
  .fmap (.seq first second) fun _ => rfl

theorem Blind.left (first : Blind call r f) (second : Blind call s g) : Blind call (r <* s) f :=
  .fmap (.seq first second) fun _ => rfl

theorem Blind.between {kind kind' : Kind} (blind : Blind call r f) :
    Blind call (.token kind *> r <* .token kind') f :=
  .left (.right .token blind) .token

theorem Blind.orElse {s : Rule R α} (first : Blind call r f) (second : Blind call s f) :
    Blind call (r <|> s) f where
  reads := by
    rintro o a ts rest xs (reading | ⟨failure, reading⟩) twins o'
    · obtain ⟨a', ts', rest', split, length, reading', alike⟩ := first.reads reading twins o'
      exact ⟨a', ts', rest', split, length, .inl reading', alike⟩
    · obtain ⟨a', ts', rest', rfl, length, reading', alike⟩ := second.reads reading twins o'
      exact ⟨a', ts', rest', rfl, length, .inr ⟨first.fails failure twins o', reading'⟩, alike⟩
  fails := fun failure twins o' => ⟨first.fails failure.1 twins o', second.fails failure.2 twins o'⟩

theorem Blind.optional (blind : Blind call r f) : Blind call (.optional r) (Option.map f) where
  reads := by
    rintro o _ ts rest xs (⟨a, rfl, reading⟩ | ⟨rfl, rfl, failure⟩) twins o'
    · obtain ⟨a', ts', rest', split, length, reading', alike⟩ := blind.reads reading twins o'
      exact ⟨some a', ts', rest', split, length, .inl ⟨a', rfl, reading'⟩, congrArg some alike⟩
    · exact ⟨none, [], xs, rfl, rfl, .inr ⟨rfl, rfl, blind.fails failure twins o'⟩, rfl⟩
  fails := False.elim

theorem Blind.many (blind : Blind call r f) : Blind call (.many r) (List.map f) where
  reads := fun reading twins o' => Meaning.Blind.repeats blind reading twins o'
  fails := False.elim

theorem Blind.spanned (blind : Blind call r f) :
    Blind call (.spanned r) (Prod.map f fun _ => .point 0) where
  reads := by
    rintro o ⟨a, _⟩ ts rest xs ⟨reading, rfl⟩ twins o'
    obtain ⟨a', ts', rest', split, length, reading', alike⟩ := blind.reads reading twins o'
    refine ⟨(a', extent o' ts'), ts', rest', split, length, ⟨reading', rfl⟩, ?_⟩
    rw [Prod.map_apply, Prod.map_apply, alike]
  fails := blind.fails

/-- What the places in a value are built from is of no account where it can be read. -/
theorem Blind.located_of {build : Span → α → β} (blind : Blind call r f)
    (same : ∀ {o a ts rest}, (meaning call r).reads o a ts rest → ∀ s, g (build s a) = build (.point 0) (f a)) :
    Blind call (located build r) g where
  reads := by
    intro o _ ts rest xs h twins o'
    obtain ⟨a, rfl, reading⟩ := reads_located.1 h
    obtain ⟨a', ts', rest', split, length, reading', alike⟩ := blind.reads reading twins o'
    refine ⟨_, ts', rest', split, length, reads_located.2 ⟨a', rfl, reading'⟩, ?_⟩
    rw [same reading', same reading, alike]
  fails := blind.fails

theorem Blind.located {build : Span → α → β} (blind : Blind call r f)
    (same : ∀ s a, g (build s a) = build (.point 0) (f a)) : Blind call (located build r) g :=
  .located_of blind fun _ s => same s _

/-- Of the text of twins the words are the same. -/
theorem Blind.verbatim (blind : Blind call r f) : Blind call (.verbatim r) Token.respaced where
  reads := by
    rintro o _ ts rest xs ⟨⟨a, reading⟩, rfl⟩ twins o'
    obtain ⟨a', ts', rest', rfl, length, reading', -⟩ := blind.reads reading twins o'
    exact ⟨_, ts', rest', rfl, length, ⟨⟨a', reading'⟩, rfl⟩, (twins.split length).1.respaced.symm⟩
  fails := blind.fails

theorem Blind.oneOf {first : Kind × β} {others : List (Kind × β)} :
    Blind call (oneOf first others) id := by
  induction others generalizing first with
  | nil => exact .fmap .token fun _ => rfl
  | cons next others ih => exact .orElse (.fmap .token fun _ => rfl) ih

theorem Blind.orEmpty {r : Rule R (α × List α)} (blind : Blind call r (Prod.map f (List.map f))) :
    Blind call (orEmpty r) (List.map f) :=
  .fmap (.optional blind) fun a => by cases a <;> rfl

theorem Blind.separated1 (blind : Blind call r f) (separator : Blind call s g) :
    Blind call (separated1 r s) (Prod.map f (List.map f)) :=
  .seq blind (.many (.right separator blind))

theorem Blind.separated (blind : Blind call r f) (separator : Blind call s g) :
    Blind call (separated r s) (List.map f) :=
  .orEmpty (.separated1 blind separator)

theorem Blind.chain {build : Span → α → β → α} (head : Blind call r f) (tail : Blind call s g)
    (same : ∀ s a b, f (build s a b) = build (.point 0) (f a) (g b)) :
    Blind call (chain r s build) f := by
  refine .fmap (.seq (.spanned head) (.many (.spanned tail))) ?_
  rintro ⟨⟨a, s⟩, tails⟩
  simp only [Prod.map_apply]
  induction tails generalizing a with
  | nil => rfl
  | cons t tails ih =>
      rw [List.foldl_cons, ih, same]
      rfl

end Combinators

end Rule

section Depth

variable {g : Rules R} {source : Source}

/-- What the nonterminals mean where calls go at most `depth` deep. -/
def Rules.meaning (g : Rules R) : (depth : Nat) → (n : N) → Meaning (R n)
  | 0, _ => ⟨fun _ _ _ _ => False, fun _ _ => True⟩
  | depth + 1, n => Rule.meaning (g.meaning depth) (g n)

theorem Rules.explains (layered : g.Layered) (depth : Nat) (n : N) {o : Nat} {xs : List Spaced}
    (holds : Holds source o xs) :
    (g.meaning depth n).Explains o xs (g.split source depth n (lexemes o xs)) := by
  induction depth generalizing n o xs with
  | zero => exact .fails trivial
  | succ depth ih =>
      exact Rule.explains (Rules.split_advance layered depth) (layered.proper n) holds
        (fun m _ => ih m holds) fun m o' ys holds' _ => ih m holds'

theorem Rules.decides (layered : g.Layered) (depth : Nat) (n : N) :
    (g.meaning depth n).Decides source (g.split source depth n) := by
  induction depth generalizing n with
  | zero => exact ⟨fun _ => False.elim, fun _ _ => rfl⟩
  | succ depth ih => exact Rule.decides (Rules.split_advance layered depth) (layered.proper n) ih

/-- Nonterminals are blind at every depth if their rules are, given that they are. -/
theorem Rules.blind {f : (n : N) → R n → R n}
    (step : ∀ call : (n : N) → Meaning (R n), (∀ n, (call n).Blind (f n)) → ∀ n, (g n).Blind call (f n))
    (depth : Nat) (n : N) : (g.meaning depth n).Blind (f n) := by
  induction depth generalizing n with
  | zero => exact ⟨False.elim, fun _ _ _ => trivial⟩
  | succ depth ih => exact step (g.meaning depth) ih n

end Depth

/-- What a phrase reads to the end of a text it reads to the end of a text with the same words. -/
theorem Phrase.split_twins {r : Phrase α} {f : α → α} (proper : r.proper)
    (blind : ∀ depth, Rule.Blind (rules.meaning depth) r f) {source source' : Source}
    {ts ts' : List Spaced} (holds : Holds source 0 ts) (holds' : Holds source' 0 ts')
    (twins : Twins ts ts') {a : α}
    (read : Phrase.split source r (lexemes 0 ts) = some ⟨a, lexemes 0 ts, []⟩) :
    ∃ a', Phrase.split source' r (lexemes 0 ts') = some ⟨a', lexemes 0 ts', []⟩ ∧ f a' = f a := by
  -- Twins have one length, so one depth is enough for both texts.
  have deep : ∀ (text : Source) (us : List Spaced), us.length = ts.length →
      Rule.split text (rules.split text (layered.height * ts.length + layered.height)) r (lexemes 0 us) =
        Phrase.split text r (lexemes 0 us) := by
    intro text us length
    refine split_of_depth proper (by rw [Token.length_lexemes, length]; omega) fun n _ => ?_
    have := layered.bounded n
    rw [Token.length_lexemes, length]
    omega
  generalize layered.height * ts.length + layered.height = depth at deep
  have explains : (Rule.meaning (rules.meaning depth) r).Explains 0 ts
      (Rule.split source (rules.split source depth) r (lexemes 0 ts)) :=
    Rule.explains (Rules.split_advance layered depth) proper holds
      (fun n _ => Rules.explains layered depth n holds)
      fun n o' ys holds' _ => Rules.explains layered depth n holds'
  rw [deep source ts rfl, read] at explains
  generalize found : some _ = x at explains
  cases explains with
  | fails => cases found
  | @reads b us rest same reading =>
      obtain ⟨rfl, -, none⟩ := Reading.mk.inj (Option.some.inj found)
      have none : rest = [] := List.length_eq_zero_iff.1 (by rw [← Token.length_lexemes, ← none]; rfl)
      subst none
      subst same
      obtain ⟨a', us', rest', rfl, length, reading', alike⟩ := (blind depth).reads reading twins 0
      have none : rest' = [] := by
        have both := twins.length
        simp only [List.length_append, List.length_nil, length] at both
        exact List.length_eq_zero_iff.1 (by omega)
      subst none
      have decides : (Rule.meaning (rules.meaning depth) r).Decides source'
          (Rule.split source' (rules.split source' depth) r) :=
        Rule.decides (Rules.split_advance layered depth) proper (Rules.decides layered depth)
      have read' := decides.reads holds' reading'
      rw [deep source' _ twins.length.symm] at read'
      rw [List.append_nil] at read' ⊢
      exact ⟨a', read', alike⟩

end Grammar
end SafeSubset
