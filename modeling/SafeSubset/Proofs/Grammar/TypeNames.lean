import SafeSubset.Proofs.Grammar.Follow
import SafeSubset.Proofs.Syntax.Bare

/-! Every type that is written is read, up to places, where what follows does not go
on with it. -/
namespace SafeSubset.Grammar.Phrase

open Token (Kind Keyword Mark Spaced Holds width extent)

variable {source : Source} {call : (n : Symbol) → Meaning n.Value} {t : TypeName} {o : Nat}
  {ts xs rest : List Spaced} {ns : List String}

theorem reads_dotted (dotted : DottedNames ns ts)
    (ends : ∀ d n more, rest = d :: n :: more → d.kind = .mark .dot → n.kind ≠ .identifier) :
    ∃ is, is.map (·.text) = ns ∧ (Rule.meaning call (mark .dot *> ident)).Repeats o is ts rest := by
  induction ns generalizing o ts with
  | nil =>
      obtain rfl : ts = [] := dotted
      refine ⟨[], rfl, rfl, Rule.fails_single.2 ?_⟩
      cases rest with
      | nil => exact .inl (by simp)
      | cons d rest =>
          by_cases dot : d.kind = .mark .dot
          · refine .inr ⟨d, rest, rfl, dot, fails_ident.2 fun n head => ?_⟩
            obtain ⟨more, rfl⟩ := List.head?_eq_some_iff.1 head
            exact ends d n more rfl dot
          · exact .inl fun u head => Option.some.inj head ▸ dot
  | cons n ns ih =>
      obtain ⟨d, t, us, rfl, dot, kind, text, dotted⟩ := dotted
      obtain ⟨is, texts, others⟩ := ih dotted
      refine ⟨⟨String.ofList t.chars, (t.lexeme (o + width [d])).span⟩ :: is, by simp [text, texts],
        [d, t], us, rfl, ?_, others⟩
      exact Rule.reads_single.2 ⟨d, [t], rfl, dot, reads_ident.2 ⟨t, rfl, kind, rfl⟩⟩

/-- What a type ends before is no length of an array. -/
theorem fails_arrayLength (ends : t.Ends rest) : (Rule.meaning call arrayLength).fails o rest := by
  obtain ⟨plain, sized, -⟩ := ends
  cases rest with
  | nil => exact Rule.fails_between_of (by simp)
  | cons a rest =>
      by_cases opens : a.kind = .mark .openBracket
      · have closing : ∀ {l : Option String} (us vs : List Spaced), rest = us ++ vs →
            (Rule.meaning call (.optional ((fun l => l.text) <$> Rule.token .number))).reads
              (o + width [a]) l us vs →
            (∀ u ∈ vs.head?, u.kind ≠ .mark .closeBracket) →
            (Rule.meaning call arrayLength).fails o (a :: rest) := by
          rintro l us vs rfl reading other
          refine Rule.fails_seqLeft.2 (.inr ⟨l, a :: us, vs, rfl, ?_, Rule.fails_token.2 other⟩)
          exact Rule.reads_single.2 ⟨a, us, rfl, opens, reading⟩
        by_cases number : ∃ n more, rest = n :: more ∧ n.kind = .number
        · obtain ⟨n, more, rfl, number⟩ := number
          refine closing [n] more rfl (.inl ⟨_, rfl, _, rfl, n, rfl, number, rfl⟩) fun u head => ?_
          obtain ⟨more, rfl⟩ := List.head?_eq_some_iff.1 head
          exact sized a n u more rfl opens number
        · refine closing [] rest rfl (.inr ⟨rfl, rfl, Rule.fails_fmap.2 (Rule.fails_token.2 ?_)⟩) ?_
          · intro u head same
            obtain ⟨more, rfl⟩ := List.head?_eq_some_iff.1 head
            exact number ⟨u, more, rfl, same⟩
          · intro u head
            obtain ⟨more, rfl⟩ := List.head?_eq_some_iff.1 head
            exact plain a u more rfl opens
      · exact Rule.fails_between_of fun u head => Option.some.inj head ▸ opens

/-- A type before brackets. -/
abbrev ChainedType (source : Source) : Nat → TypeName → List Spaced → List Spaced → Prop :=
  Rule.Chained (Symbol.meaning source) (mappingType <|> elementaryType <|> userType) arrayLength
    .array

theorem reads_of_chainedType (holds : Holds source o (ts ++ rest))
    (chained : ChainedType source o t ts rest) (ends : t.Ends rest) :
    Phrase.Reads source typeName o t ts rest :=
  Symbol.reads_of_rule (n := .typeName) holds (chained.reads (fails_arrayLength ends))

theorem chained_of_elementary {u : Spaced} {us : List Spaced} {type : Ty} (kind : u.kind = .identifier)
    (named : Ty.ofName? (String.ofList u.chars) = some type)
    (payable : ∃ l, (Rule.meaning (Symbol.meaning source) (.optional (keyword .payable))).reads
      (o + width [u]) l us rest) :
    ChainedType source o (.elementary (extent o (u :: us)) type) (u :: us) rest := by
  obtain ⟨l, payable⟩ := payable
  refine .head (List.cons_ne_nil u us) (Rule.reads_orElse.2 (.inr ⟨?_, Rule.reads_orElse.2 (.inl ?_)⟩))
  · exact Rule.fails_located.2 (Rule.fails_single.2 (.inl fun v head => by
      obtain rfl := Option.some.inj head
      simp [kind]))
  · refine Rule.reads_located.2 ⟨type, rfl, Rule.reads_seqLeft.2 ⟨l, [u], us, rfl, ?_, payable⟩⟩
    exact reads_elementaryWord.2 ⟨u, rfl, kind, named⟩

theorem chained_of_user {u : Spaced} {us : List Spaced} {is : List Ident} (kind : u.kind = .identifier)
    (own : Ty.ofName? (String.ofList u.chars) = none)
    (others : (Rule.meaning (Symbol.meaning source) (mark .dot *> ident)).Repeats (o + width [u]) is
      us rest) :
    ChainedType source o
      (.user (extent o (u :: us)) (.ofComponents ⟨String.ofList u.chars, (u.lexeme o).span⟩ is))
      (u :: us) rest := by
  refine .head (List.cons_ne_nil u us) (Rule.reads_orElse.2 (.inr ⟨?_, Rule.reads_orElse.2 (.inr ⟨?_, ?_⟩)⟩))
  · exact Rule.fails_located.2 (Rule.fails_single.2 (.inl fun v head => by
      obtain rfl := Option.some.inj head
      simp [kind]))
  · refine Rule.fails_located.2 (Rule.fails_seqLeft.2 (.inl (fails_elementaryWord.2 fun v head _ => ?_)))
    obtain rfl := Option.some.inj head
    exact own
  · refine Rule.reads_located.2 ⟨_, rfl, Rule.reads_fmap.2 ⟨(_, is), rfl, [u], us, rfl, ?_, others⟩⟩
    exact reads_ident.2 ⟨u, rfl, kind, rfl⟩

/-- A type of keys and one of values between the tokens of a mapping. -/
theorem chained_of_mapping {key value : TypeName} {m a b c : Spaced} {ks vs : List Spaced}
    (mapping : m.kind = .keyword .mapping) (opens : a.kind = .mark .openParen)
    (arrow : b.kind = .mark .arrow) (closes : c.kind = .mark .closeParen)
    (first : Phrase.Reads source typeName (o + width [m, a]) key ks (b :: (vs ++ (c :: rest))))
    (second : Phrase.Reads source typeName (o + width [m, a] + width ks + width [b]) value vs
      (c :: rest)) :
    ChainedType source o (.mapping (extent o (m :: a :: ks ++ b :: vs ++ [c])) key value)
      (m :: a :: ks ++ b :: vs ++ [c]) rest := by
  refine .head (by simp) (Rule.reads_orElse.2 (.inl (Rule.reads_located.2 ⟨(key, value), rfl, ?_⟩)))
  refine Rule.reads_single.2 ⟨m, a :: (ks ++ [b] ++ vs) ++ [c], by simp, mapping, ?_⟩
  refine Rule.reads_between.2 ⟨a, _, c, rfl, opens, closes, ks ++ [b], vs, rfl, ?_, ?_⟩
  · refine Rule.reads_before.2 ⟨ks, b, rfl, arrow, ?_⟩
    simpa [Token.width_cons, Nat.add_assoc] using first
  · simpa [Token.width_cons, Nat.add_assoc] using second

/-- What does not go on with a type but for brackets. -/
structure Bounded (t : TypeName) (rest : List Spaced) : Prop where
  dots : ∀ s p, t = .user s p → ∀ d n more, rest = d :: n :: more → d.kind = .mark .dot →
    n.kind ≠ .identifier
  payable : ∀ u ∈ rest.head?, u.kind ≠ .keyword .payable

theorem bounded_of_mark {t : TypeName} {u : Spaced} {m : Mark} (kind : u.kind = .mark m)
    (other : m ≠ .dot) (us : List Spaced) : Bounded t (u :: us) where
  dots s p _ d n more same dot := by
    cases same
    exact absurd (Kind.mark.inj (kind.symm.trans dot)) other
  payable v head := by
    obtain rfl := Option.some.inj head
    simp [kind]

theorem chained_of_written (written : t.Written ts) (holds : Holds source o (ts ++ rest))
    (bounded : Bounded t rest) : ∃ t', ChainedType source o t' ts rest ∧ t'.bare = t.bare := by
  induction written generalizing o rest with
  | @elementary s type u kind named =>
      refine ⟨_, chained_of_elementary kind named ⟨none, ?_⟩, rfl⟩
      exact Rule.reads_optional.2 (.inr ⟨rfl, rfl, Rule.fails_token.2 bounded.payable⟩)
  | @payable s type u p kind named payable =>
      refine ⟨_, chained_of_elementary kind named ⟨some (p.lexeme (o + width [u])), ?_⟩, rfl⟩
      exact Rule.reads_optional.2 (.inl ⟨_, rfl, p, rfl, payable, rfl⟩)
  | @user s path ns u us kind own components dotted =>
      obtain ⟨is, texts, others⟩ : ∃ is : List Ident, is.map (·.text) = ns ∧
          (Rule.meaning (Symbol.meaning source) (mark .dot *> ident)).Repeats (o + width [u]) is us rest :=
        reads_dotted dotted (bounded.dots s path rfl)
      refine ⟨_, chained_of_user kind own others, ?_⟩
      simp only [TypeName.bare, TypeName.user.injEq, true_and]
      refine Path.bare_congr ?_
      rw [components_ofComponents, components]
      simp [texts]
  | @mapping s key value m a b c ks vs kinds writtenKey writtenValue ihk ihv =>
      simp only [List.map_cons, List.map_nil, List.cons.injEq, and_true] at kinds
      obtain ⟨mapping, opens, arrow, closes⟩ := kinds
      have split : m :: a :: ks ++ b :: vs ++ [c] ++ rest =
          [m, a] ++ (ks ++ (b :: (vs ++ (c :: rest)))) := by simp
      rw [split] at holds
      have inner := holds.right
      have beyond : Holds source (o + width [m, a] + width ks + width [b]) (vs ++ (c :: rest)) :=
        inner.right.tail
      obtain ⟨key', chained, sameKey⟩ := ihk inner (bounded_of_mark arrow (by decide) _)
      obtain ⟨value', chained', sameValue⟩ := ihv beyond (bounded_of_mark closes (by decide) _)
      have reading := reads_of_chainedType inner chained ((follow_cons arrow (by decide) _).ends key')
      have reading' := reads_of_chainedType beyond chained' ((follow_cons closes (by decide) _).ends value')
      exact ⟨_, chained_of_mapping mapping opens arrow closes reading reading',
        by simp [TypeName.bare, sameKey, sameValue]⟩
  | @array s element a b es written kinds ih =>
      simp only [List.map_cons, List.map_nil, List.cons.injEq, and_true] at kinds
      rw [List.append_assoc] at holds
      obtain ⟨element', chained, same⟩ := ih holds (bounded_of_mark kinds.1 (by decide) _)
      refine ⟨_, .tail (b := none) chained ?_, by simp [TypeName.bare, same]⟩
      refine Rule.reads_between.2 ⟨a, [], b, rfl, kinds.1, kinds.2, ?_⟩
      refine Rule.reads_optional.2 (.inr ⟨rfl, rfl, Rule.fails_fmap.2 (Rule.fails_token.2 fun u head => ?_)⟩)
      obtain rfl := Option.some.inj head
      simp [kinds.2]
  | @sized s element a n b es written kinds ih =>
      simp only [List.map_cons, List.map_nil, List.cons.injEq, and_true] at kinds
      rw [List.append_assoc] at holds
      obtain ⟨element', chained, same⟩ := ih holds (bounded_of_mark kinds.1 (by decide) _)
      refine ⟨_, .tail (b := some (String.ofList n.chars)) chained ?_, by simp [TypeName.bare, same]⟩
      refine Rule.reads_between.2 ⟨a, [n], b, rfl, kinds.1, kinds.2.2, ?_⟩
      exact Rule.reads_optional.2 (.inl ⟨_, rfl, _, rfl, n, rfl, kinds.2.1, rfl⟩)

theorem ends_congr {t' : TypeName} (same : t'.bare = t.bare) (ends : t.Ends rest) : t'.Ends rest := by
  refine ⟨ends.1, ends.2.1, ?_⟩
  rintro s p rfl
  cases t with
  | user s' p' => exact ends.2.2 s' p' rfl
  | _ => cases same

/-- A type that is written is read if it ends there. -/
theorem reads_of_written (written : t.Written ts) (holds : Holds source o (ts ++ rest))
    (ends : t.Ends rest) (payable : ∀ u ∈ rest.head?, u.kind ≠ .keyword .payable) :
    ∃ t', Phrase.Reads source typeName o t' ts rest ∧ t'.bare = t.bare := by
  obtain ⟨t', chained, same⟩ := chained_of_written written holds ⟨ends.2.2, payable⟩
  exact ⟨t', reads_of_chainedType holds chained (ends_congr same ends), same⟩

end SafeSubset.Grammar.Phrase
