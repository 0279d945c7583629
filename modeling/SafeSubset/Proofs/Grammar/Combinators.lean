import SafeSubset.Proofs.Grammar.Language

/-! What the phrases that rules are made of mean, whatever the nonterminals
mean. -/
namespace SafeSubset.Grammar

open Token (Kind Keyword Mark Lexeme Spaced lexemes width extent core)

namespace Rule

variable {N : Type} {R : N → Type} {call : (n : N) → Meaning (R n)} {α β : Type}
  {r : Rule R α} {s : Rule R β} {o : Nat} {ts xs rest : List Spaced}

theorem reads_fmap {f : α → β} {b : β} :
    (meaning call (f <$> r)).reads o b ts rest ↔
      ∃ a, f a = b ∧ (meaning call r).reads o a ts rest := .rfl

theorem fails_fmap {f : α → β} :
    (meaning call (f <$> r)).fails o xs ↔ (meaning call r).fails o xs := .rfl

theorem fails_seq :
    (meaning call (seq r s)).fails o xs ↔
      (meaning call r).fails o xs ∨ ∃ a us vs, xs = us ++ vs ∧ (meaning call r).reads o a us vs ∧
        (meaning call s).fails (o + width us) vs := .rfl

theorem reads_seqRight {b : β} :
    (meaning call (r *> s)).reads o b ts rest ↔
      ∃ a us vs, ts = us ++ vs ∧ (meaning call r).reads o a us (vs ++ rest) ∧
        (meaning call s).reads (o + width us) b vs rest := by
  constructor
  · rintro ⟨⟨a, _⟩, rfl, us, vs, h⟩
    exact ⟨a, us, vs, h⟩
  · rintro ⟨a, us, vs, h⟩
    exact ⟨(a, b), rfl, us, vs, h⟩

theorem fails_seqRight :
    (meaning call (r *> s)).fails o xs ↔
      (meaning call r).fails o xs ∨ ∃ a us vs, xs = us ++ vs ∧ (meaning call r).reads o a us vs ∧
        (meaning call s).fails (o + width us) vs := .rfl

theorem reads_seqLeft {a : α} :
    (meaning call (r <* s)).reads o a ts rest ↔
      ∃ b us vs, ts = us ++ vs ∧ (meaning call r).reads o a us (vs ++ rest) ∧
        (meaning call s).reads (o + width us) b vs rest := by
  constructor
  · rintro ⟨⟨_, b⟩, rfl, us, vs, h⟩
    exact ⟨b, us, vs, h⟩
  · rintro ⟨b, us, vs, h⟩
    exact ⟨(a, b), rfl, us, vs, h⟩

theorem fails_seqLeft :
    (meaning call (r <* s)).fails o xs ↔
      (meaning call r).fails o xs ∨ ∃ a us vs, xs = us ++ vs ∧ (meaning call r).reads o a us vs ∧
        (meaning call s).fails (o + width us) vs := .rfl

theorem reads_orElse {r s : Rule R α} {a : α} :
    (meaning call (r <|> s)).reads o a ts rest ↔
      (meaning call r).reads o a ts rest ∨
        (meaning call r).fails o (ts ++ rest) ∧ (meaning call s).reads o a ts rest := .rfl

theorem fails_orElse {r s : Rule R α} :
    (meaning call (r <|> s)).fails o xs ↔
      (meaning call r).fails o xs ∧ (meaning call s).fails o xs := .rfl

theorem reads_optional {b : Option α} :
    (meaning call (optional r)).reads o b ts rest ↔
      (∃ a, b = some a ∧ (meaning call r).reads o a ts rest) ∨
        b = none ∧ ts = [] ∧ (meaning call r).fails o rest := .rfl

theorem fails_optional : ¬ (meaning call (optional r)).fails o xs := id

theorem reads_token {kind : Kind} {l : Lexeme} :
    (meaning call (token kind)).reads o l ts rest ↔
      ∃ t, ts = [t] ∧ t.kind = kind ∧ l = t.lexeme o := .rfl

theorem fails_token {kind : Kind} :
    (meaning call (token kind)).fails o xs ↔ ∀ t ∈ xs.head?, t.kind ≠ kind := by
  simp [meaning, Meaning.one]

theorem reads_word {f : String → Except Misfit α} {a : α} :
    (meaning call (word f)).reads o a ts rest ↔
      ∃ t, ts = [t] ∧ t.kind = .identifier ∧ f (String.ofList t.chars) = .ok a := .rfl

theorem fails_word {f : String → Except Misfit α} :
    (meaning call (word f)).fails o xs ↔
      ∀ t ∈ xs.head?, t.kind = .identifier → ∀ a, f (String.ofList t.chars) ≠ .ok a := by
  simp only [meaning, Meaning.one, not_and]
  exact ⟨fun h t ht kind a => h t ht a kind, fun h t ht a kind => h t ht kind a⟩

theorem reads_located {build : Span → α → β} {b : β} :
    (meaning call (located build r)).reads o b ts rest ↔
      ∃ a, build (extent o ts) a = b ∧ (meaning call r).reads o a ts rest := by
  constructor
  · rintro ⟨⟨a, _⟩, rfl, reading, rfl⟩
    exact ⟨a, rfl, reading⟩
  · rintro ⟨a, rfl, reading⟩
    exact ⟨(a, extent o ts), rfl, reading, rfl⟩

theorem fails_located {build : Span → α → β} :
    (meaning call (located build r)).fails o xs ↔ (meaning call r).fails o xs := .rfl

theorem reads_verbatim {text : String} :
    (meaning call (verbatim r)).reads o text ts rest ↔
      (∃ a, (meaning call r).reads o a ts rest) ∧ text = String.ofList (core ts) := .rfl

theorem fails_verbatim :
    (meaning call (verbatim r)).fails o xs ↔ (meaning call r).fails o xs := .rfl

theorem lookup_kind {k kind : Kind} {v : β} {others : List (Kind × β)} :
    ((kind, v) :: others).lookup k = if k = kind then some v else others.lookup k := by
  by_cases same : k = kind
  · rw [same, List.lookup_cons_self, if_pos rfl]
  · rw [List.lookup_cons, beq_false_of_ne same, if_neg same]

/-- A token that stands for a value, by its kind. -/
theorem reads_oneOf {first : Kind × β} {others : List (Kind × β)} {b : β} :
    (meaning call (oneOf first others)).reads o b ts rest ↔
      ∃ t, ts = [t] ∧ (first :: others).lookup t.kind = some b := by
  induction others generalizing first with
  | nil =>
      obtain ⟨kind, v⟩ := first
      simp only [oneOf, reads_fmap, reads_token, lookup_kind]
      constructor
      · rintro ⟨_, rfl, t, rfl, rfl, -⟩
        exact ⟨t, rfl, if_pos rfl⟩
      · rintro ⟨t, rfl, found⟩
        split at found
        · next same => exact ⟨_, Option.some.inj found, t, rfl, same, rfl⟩
        · cases found
  | cons next others ih =>
      obtain ⟨kind, v⟩ := first
      simp only [oneOf, reads_orElse, reads_fmap, reads_token, fails_fmap, fails_token, ih]
      rw [show (∃ t, ts = [t] ∧ ((kind, v) :: next :: others).lookup t.kind = some b) ↔
        ∃ t, ts = [t] ∧ (if t.kind = kind then some v else (next :: others).lookup t.kind) = some b
        by simp only [lookup_kind (k := _) (v := v)]]
      constructor
      · rintro (⟨_, rfl, t, rfl, rfl, -⟩ | ⟨other, t, rfl, found⟩)
        · exact ⟨t, rfl, if_pos rfl⟩
        · exact ⟨t, rfl, (if_neg (other t rfl)).trans found⟩
      · rintro ⟨t, rfl, found⟩
        split at found
        · next same => exact .inl ⟨_, Option.some.inj found, t, rfl, same, rfl⟩
        · next other => exact .inr ⟨fun u hu => by cases hu; exact other, t, rfl, found⟩

theorem mem_of_reads_oneOf {first : Kind × β} {others : List (Kind × β)} {b : β}
    (h : (meaning call (oneOf first others)).reads o b ts rest) :
    ∃ t, ts = [t] ∧ (t.kind, b) ∈ first :: others := by
  obtain ⟨t, rfl, found⟩ := reads_oneOf.1 h
  obtain ⟨_, _, same, -⟩ := List.lookup_eq_some_iff.1 found
  exact ⟨t, rfl, by simp [same]⟩

theorem fails_oneOf {first : Kind × β} {others : List (Kind × β)} :
    (meaning call (oneOf first others)).fails o xs ↔
      ∀ t ∈ xs.head?, (first :: others).lookup t.kind = none := by
  induction others generalizing first with
  | nil =>
      obtain ⟨kind, v⟩ := first
      simp only [oneOf, fails_fmap, fails_token, lookup_kind]
      simp
  | cons next others ih =>
      obtain ⟨kind, v⟩ := first
      simp only [oneOf, fails_orElse, fails_fmap, fails_token, ih, ← forall₂_and]
      refine forall₂_congr fun t _ => ?_
      rw [lookup_kind (v := v)]
      split <;> simp [*]

theorem reads_single {kind : Kind} {b : β} :
    (meaning call (token kind *> s)).reads o b ts rest ↔
      ∃ t us, ts = t :: us ∧ t.kind = kind ∧ (meaning call s).reads (o + width [t]) b us rest := by
  rw [reads_seqRight]
  constructor
  · rintro ⟨_, _, us, rfl, ⟨t, rfl, kind, -⟩, reading⟩
    exact ⟨t, us, rfl, kind, reading⟩
  · rintro ⟨t, us, rfl, kind, reading⟩
    exact ⟨_, [t], us, rfl, ⟨t, rfl, kind, rfl⟩, reading⟩

theorem fails_single {kind : Kind} :
    (meaning call (token kind *> s)).fails o xs ↔
      (∀ t ∈ xs.head?, t.kind ≠ kind) ∨
        ∃ t us, xs = t :: us ∧ t.kind = kind ∧ (meaning call s).fails (o + width [t]) us := by
  rw [fails_seqRight, fails_token]
  refine or_congr_right ?_
  constructor
  · rintro ⟨_, _, us, rfl, ⟨t, rfl, kind, -⟩, failure⟩
    exact ⟨t, us, rfl, kind, failure⟩
  · rintro ⟨t, us, rfl, kind, failure⟩
    exact ⟨_, [t], us, rfl, ⟨t, rfl, kind, rfl⟩, failure⟩

theorem reads_before {kind : Kind} {a : α} :
    (meaning call (r <* token kind)).reads o a ts rest ↔
      ∃ us t, ts = us ++ [t] ∧ t.kind = kind ∧ (meaning call r).reads o a us (t :: rest) := by
  rw [reads_seqLeft]
  constructor
  · rintro ⟨_, us, _, rfl, reading, t, rfl, kind, -⟩
    exact ⟨us, t, rfl, kind, reading⟩
  · rintro ⟨us, t, rfl, kind, reading⟩
    exact ⟨_, us, [t], rfl, reading, t, rfl, kind, rfl⟩

/-- A phrase between two tokens. -/
theorem reads_between {kind kind' : Kind} {a : α} :
    (meaning call (token kind *> r <* token kind')).reads o a ts rest ↔
      ∃ t us u, ts = t :: us ++ [u] ∧ t.kind = kind ∧ u.kind = kind' ∧
        (meaning call r).reads (o + width [t]) a us (u :: rest) := by
  simp only [reads_before, reads_single]
  constructor
  · rintro ⟨_, u, rfl, kind', t, us, rfl, kind, reading⟩
    exact ⟨t, us, u, rfl, kind, kind', reading⟩
  · rintro ⟨t, us, u, rfl, kind, kind', reading⟩
    exact ⟨_, u, rfl, kind', t, us, rfl, kind, reading⟩

theorem fails_between {kind kind' : Kind} (h : (meaning call (token kind *> r <* token kind')).fails o xs)
    {t : Spaced} {us : List Spaced} (first : t.kind = kind) (same : xs = t :: us) :
    (meaning call r).fails (o + width [t]) us ∨
      ∃ a vs ws, us = vs ++ ws ∧ (meaning call r).reads (o + width [t]) a vs ws ∧
        ∀ u ∈ ws.head?, u.kind ≠ kind' := by
  subst same
  rcases fails_seqLeft.1 h with h | ⟨a, vs, ws, split, reading, missing⟩
  · rcases fails_single.1 h with h | ⟨t', us', same, -, h⟩
    · exact absurd first (h t rfl)
    · cases same
      exact .inl h
  · obtain ⟨t', vs', rfl, -, reading⟩ := reads_single.1 reading
    obtain ⟨rfl, rfl⟩ := List.cons.inj split
    exact .inr ⟨a, vs', ws, rfl, reading, fails_token.1 missing⟩

theorem reads_separated {separator : Rule R β} {as : List α} :
    (meaning call (separated r separator)).reads o as ts rest ↔
      (as = [] ∧ ts = [] ∧ (meaning call r).fails o rest) ∨
        ∃ b bs us vs, as = b :: bs ∧ ts = us ++ vs ∧ (meaning call r).reads o b us (vs ++ rest) ∧
          (meaning call (separator *> r)).Repeats (o + width us) bs vs rest := by
  unfold separated orEmpty separated1
  simp only [reads_fmap, reads_optional]
  constructor
  · rintro ⟨_, rfl, ⟨⟨b, bs⟩, rfl, us, vs, rfl, reading, others⟩ | ⟨rfl, rfl, failure⟩⟩
    · exact .inr ⟨b, bs, us, vs, rfl, rfl, reading, others⟩
    · exact .inl ⟨rfl, rfl, failure.resolve_right fun ⟨_, _, _, _, _, h⟩ => h⟩
  · rintro (⟨rfl, rfl, failure⟩ | ⟨b, bs, us, vs, rfl, rfl, reading, others⟩)
    · exact ⟨none, rfl, .inr ⟨rfl, rfl, .inl failure⟩⟩
    · exact ⟨some (b, bs), rfl, .inl ⟨_, rfl, us, vs, rfl, reading, others⟩⟩

/-- What holds of the head of a chain and goes over from its front to one more
tail holds of the chain. There is no tail behind it. -/
theorem reads_chain {head : Rule R α} {tail : Rule R β} {build : Span → α → β → α}
    {Q : Nat → α → List Spaced → List Spaced → Prop}
    (some : ∀ {o a ts rest}, Q o a ts rest → ts ≠ [])
    (first : ∀ {o a ts rest}, (meaning call head).reads o a ts rest → Q o a ts rest)
    (next : ∀ {o a b us vs rest}, Q o a us (vs ++ rest) →
      (meaning call tail).reads (o + width us) b vs rest →
      Q o (build (extent o (us ++ vs)) a b) (us ++ vs) rest)
    {a : α} (h : (meaning call (chain head tail build)).reads o a ts rest) :
    Q o a ts rest ∧ (meaning call tail).fails (o + width ts) rest := by
  obtain ⟨⟨⟨a, s⟩, tails⟩, rfl, us, vs, rfl, ⟨reading, rfl⟩, others⟩ := reads_fmap.1 h
  -- The start of the chain stays that of its head while tails are taken up.
  have go : ∀ (tails : List (β × Span)) (start : Nat) (a : α) (us vs : List Spaced),
      (extent o us).start = start → Q o a us (vs ++ rest) →
      (meaning call (spanned tail)).Repeats (o + width us) tails vs rest →
      Q o (tails.foldl (fun a t => build ⟨start, t.2.stop⟩ a t.1) a) (us ++ vs) rest ∧
        (meaning call tail).fails (o + width (us ++ vs)) rest := by
    intro tails
    induction tails with
    | nil =>
        rintro _ a us _ rfl q ⟨rfl, failure⟩
        rw [List.append_nil]
        exact ⟨by simpa using q, failure⟩
    | cons t tails ih =>
        rintro _ a us _ rfl q ⟨ws, vs, rfl, ⟨reading, place⟩, others⟩
        rw [List.append_assoc] at q
        have q' := next q reading
        have same : extent o (us ++ ws) = ⟨(extent o us).start, (extent (o + width us) ws).stop⟩ :=
          Token.extent_append o (some q)
        rw [same, ← place] at q'
        rw [← List.append_assoc]
        refine ih _ _ _ _ ?_ q' (by rwa [Token.width_append, ← Nat.add_assoc])
        rw [same]
  exact go tails _ a us vs rfl (first reading) others

/-- A head and tails behind it, whatever follows the last one. -/
inductive Chained (call : (n : N) → Meaning (R n)) (head : Rule R α) (tail : Rule R β)
    (build : Span → α → β → α) : Nat → α → List Spaced → List Spaced → Prop where
  | head {o : Nat} {a : α} {ts rest : List Spaced} (some : ts ≠ [])
      (reading : (meaning call head).reads o a ts rest) : Chained call head tail build o a ts rest
  | tail {o : Nat} {a : α} {b : β} {us vs rest : List Spaced}
      (before : Chained call head tail build o a us (vs ++ rest))
      (reading : (meaning call tail).reads (o + width us) b vs rest) :
      Chained call head tail build o (build (extent o (us ++ vs)) a b) (us ++ vs) rest

section Chained

variable {head : Rule R α} {tail : Rule R β} {build : Span → α → β → α} {a : α}

theorem Chained.ne_nil (h : Chained call head tail build o a ts rest) : ts ≠ [] := by
  induction h with
  | head some _ => exact some
  | tail _ _ ih => exact List.append_ne_nil_of_left_ne_nil ih _

/-- More tails behind those that there are. -/
theorem Chained.repeats (h : Chained call head tail build o a ts rest) {tails : List (β × Span)}
    {vs behind : List Spaced} (same : rest = vs ++ behind)
    (others : (meaning call (spanned tail)).Repeats (o + width ts) tails vs behind) :
    (meaning call (chain head tail build)).reads o
      (tails.foldl (fun a t => build ⟨(extent o ts).start, t.2.stop⟩ a t.1) a) (ts ++ vs) behind := by
  induction h generalizing tails vs with
  | @head a ts rest some reading =>
      subst same
      exact reads_fmap.2 ⟨((a, extent o ts), tails), rfl, ts, vs, rfl, ⟨reading, rfl⟩, others⟩
  | @tail a b us ws rest before reading ih =>
      subst same
      have whole : extent o (us ++ ws) = ⟨(extent o us).start, (extent (o + width us) ws).stop⟩ :=
        Token.extent_append o before.ne_nil
      have both : (meaning call (spanned tail)).Repeats (o + width us)
          ((b, extent (o + width us) ws) :: tails) (ws ++ vs) behind :=
        ⟨ws, vs, rfl, ⟨reading, rfl⟩, by rwa [Nat.add_assoc, ← Token.width_append]⟩
      have tail_and_others := ih (List.append_assoc _ _ _).symm both
      rw [List.append_assoc, whole]
      exact tail_and_others

/-- A chain is read where no tail follows. -/
theorem Chained.reads (h : Chained call head tail build o a ts rest)
    (ends : (meaning call tail).fails (o + width ts) rest) :
    (meaning call (chain head tail build)).reads o a ts rest := by
  have none : (meaning call (spanned tail)).Repeats (o + width ts) [] [] rest := ⟨rfl, ends⟩
  have whole := h.repeats rfl none
  rwa [List.append_nil] at whole

theorem fails_chain :
    (meaning call (chain head tail build)).fails o xs ↔ (meaning call head).fails o xs := by
  rw [show (meaning call (chain head tail build)).fails o xs ↔
    (meaning call (seq (spanned head) (many (spanned tail)))).fails o xs from .rfl, fails_seq]
  exact or_iff_left fun ⟨_, _, _, _, _, h⟩ => h

end Chained

end Rule
end SafeSubset.Grammar
