import SafeSubset.Proofs.Grammar.Combinators
import SafeSubset.Proofs.Grammar.Layout

/-! What the parser reads is laid out as the tokens that it takes. -/
namespace SafeSubset.Grammar.Phrase

open Token (Kind Keyword Mark Lexeme Spaced Holds lexemes width extent core)

variable {call : (n : Symbol) → Meaning n.Value} {o : Nat} {ts xs rest : List Spaced}

theorem reads_elementaryWord {t : Ty} :
    (Rule.meaning call elementaryWord).reads o t ts rest ↔
      ∃ u, ts = [u] ∧ u.kind = .identifier ∧ Ty.ofName? (String.ofList u.chars) = some t := by
  simp only [elementaryWord, Rule.reads_word]
  refine exists_congr fun u => and_congr_right fun _ => and_congr_right fun _ => ?_
  cases Ty.ofName? (String.ofList u.chars) <;> simp

theorem fails_elementaryWord :
    (Rule.meaning call elementaryWord).fails o xs ↔
      ∀ u ∈ xs.head?, u.kind = .identifier → Ty.ofName? (String.ofList u.chars) = none := by
  simp only [elementaryWord, Rule.fails_word]
  refine forall₃_congr fun u _ _ => ?_
  cases Ty.ofName? (String.ofList u.chars) <;> simp

theorem reads_ident {i : Ident} :
    (Rule.meaning call ident).reads o i ts rest ↔
      ∃ t, ts = [t] ∧ t.kind = .identifier ∧ i = ⟨String.ofList t.chars, (t.lexeme o).span⟩ := by
  simp only [ident, Rule.reads_fmap, Rule.reads_token]
  constructor
  · rintro ⟨_, rfl, t, rfl, kind, rfl⟩
    exact ⟨t, rfl, kind, rfl⟩
  · rintro ⟨t, rfl, kind, rfl⟩
    exact ⟨_, rfl, t, rfl, kind, rfl⟩

theorem fails_ident :
    (Rule.meaning call ident).fails o xs ↔ ∀ t ∈ xs.head?, t.kind ≠ .identifier := by
  simp only [ident, Rule.fails_fmap, Rule.fails_token]

/-- The components of a path behind the first, and what does not follow them. -/
theorem repeats_dotted {is : List Ident}
    (h : (Rule.meaning call (mark .dot *> ident)).Repeats o is ts rest) :
    DottedNames (is.map (·.text)) ts ∧
      ∀ d n more, rest = d :: n :: more → d.kind = .mark .dot → n.kind ≠ .identifier := by
  induction is generalizing o ts with
  | nil =>
      obtain ⟨rfl, failure⟩ := h
      refine ⟨rfl, ?_⟩
      rintro d n more rfl dot
      rcases Rule.fails_single.1 failure with h | ⟨_, _, same, _, h⟩
      · exact absurd dot (h d rfl)
      · cases same
        exact fails_ident.1 h n rfl
  | cons i is ih =>
      obtain ⟨_, vs, rfl, reading, others⟩ := h
      obtain ⟨d, _, rfl, dot, reading⟩ := Rule.reads_single.1 reading
      obtain ⟨t, rfl, kind, rfl⟩ := reads_ident.1 reading
      obtain ⟨dotted, ends⟩ := ih others
      exact ⟨⟨d, t, vs, rfl, dot, kind, rfl, dotted⟩, ends⟩

theorem components_ofComponents (first : Ident) (others : List Ident) :
    (Path.ofComponents first others).components = first :: others := by
  induction others generalizing first with
  | nil => rfl
  | cons next others ih =>
      have tail := ih next
      simp only [Path.components] at tail ⊢
      simp [Path.ofComponents, tail]

theorem ends_arrayLength (h : (Rule.meaning call arrayLength).fails o rest) :
    (∀ a b more, rest = a :: b :: more → a.kind = .mark .openBracket →
        b.kind ≠ .mark .closeBracket) ∧
      ∀ a n b more, rest = a :: n :: b :: more → a.kind = .mark .openBracket →
        n.kind = .number → b.kind ≠ .mark .closeBracket := by
  constructor
  · rintro a b more same opens
    rcases Rule.fails_between h opens same with h | ⟨_, vs, ws, split, reading, ends⟩
    · exact absurd h Rule.fails_optional
    · rcases Rule.reads_optional.1 reading with ⟨_, -, _, -, n, rfl, number, -⟩ | ⟨-, rfl, -⟩
      · cases split
        simp [number]
      · cases split
        exact ends b rfl
  · rintro a n b more same opens number
    rcases Rule.fails_between h opens same with h | ⟨_, vs, ws, split, reading, ends⟩
    · exact absurd h Rule.fails_optional
    · rcases Rule.reads_optional.1 reading with ⟨_, -, _, -, n, rfl, -, -⟩ | ⟨-, rfl, failure⟩
      · cases split
        exact ends b rfl
      · cases split
        exact absurd number (Rule.fails_token.1 (Rule.fails_fmap.1 failure) n rfl)

theorem sound_mappingType
    (types : ∀ {o t ts rest}, (call .typeName).reads o t ts rest → t.Written ts) {t : TypeName}
    (h : (Rule.meaning call mappingType).reads o t ts rest) : t.Written ts ∧ ∃ s k v, t = .mapping s k v := by
  obtain ⟨⟨key, value⟩, rfl, reading⟩ := Rule.reads_located.1 h
  obtain ⟨m, _, rfl, kind, reading⟩ := Rule.reads_single.1 reading
  obtain ⟨a, us, c, rfl, opens, closes, us, vs, rfl, reading, reading'⟩ := Rule.reads_between.1 reading
  obtain ⟨ks, b, rfl, arrow, reading⟩ := Rule.reads_before.1 reading
  have written := TypeName.Written.mapping (s := extent o (m :: (a :: (ks ++ [b] ++ vs) ++ [c])))
    (m := m) (a := a) (b := b) (c := c) (by simp [kind, opens, arrow, closes]) (types reading)
    (types reading')
  exact ⟨by simpa using written, _, _, _, rfl⟩

theorem sound_elementaryType {t : TypeName}
    (h : (Rule.meaning call elementaryType).reads o t ts rest) :
    t.Written ts ∧ ∃ s type, t = .elementary s type := by
  obtain ⟨type, rfl, reading⟩ := Rule.reads_located.1 h
  obtain ⟨_, _, vs, rfl, reading, payable⟩ := Rule.reads_seqLeft.1 reading
  obtain ⟨t, rfl, kind, named⟩ := reads_elementaryWord.1 reading
  refine ⟨?_, _, _, rfl⟩
  rcases Rule.reads_optional.1 payable with ⟨_, -, p, rfl, payable, -⟩ | ⟨-, rfl, -⟩
  · exact .payable kind named payable
  · exact .elementary kind named

theorem sound_userType {t : TypeName} (h : (Rule.meaning call userType).reads o t ts rest)
    (own : ∀ u ∈ (ts ++ rest).head?, u.kind = .identifier → Ty.ofName? (String.ofList u.chars) = none) :
    t.Written ts ∧ ∀ d n more, rest = d :: n :: more → d.kind = .mark .dot →
      n.kind ≠ .identifier := by
  obtain ⟨p, rfl, reading⟩ := Rule.reads_located.1 h
  obtain ⟨⟨first, others⟩, rfl, us, vs, rfl, reading, others'⟩ := Rule.reads_fmap.1 reading
  obtain ⟨t, rfl, kind, rfl⟩ := reads_ident.1 reading
  obtain ⟨dotted, ends⟩ := repeats_dotted others'
  refine ⟨.user kind (own t rfl kind) ?_ dotted, ends⟩
  simp [components_ofComponents]

/-- A type that is no array. -/
theorem sound_plainType
    (types : ∀ {o t ts rest}, (call .typeName).reads o t ts rest → t.Written ts) {t : TypeName}
    (h : (Rule.meaning call (mappingType <|> elementaryType <|> userType)).reads o t ts rest) :
    t.Written ts ∧ ∀ s p, t = .user s p → ∀ d n more, rest = d :: n :: more → d.kind = .mark .dot →
      n.kind ≠ .identifier := by
  rcases Rule.reads_orElse.1 h with h | ⟨-, h⟩
  · obtain ⟨written, s, k, v, rfl⟩ := sound_mappingType types h
    exact ⟨written, fun _ _ same => by cases same⟩
  rcases Rule.reads_orElse.1 h with h | ⟨other, h⟩
  · obtain ⟨written, s, type, rfl⟩ := sound_elementaryType h
    exact ⟨written, fun _ _ same => by cases same⟩
  · have own := fails_elementaryWord.1 ((Rule.fails_seqLeft.1 (Rule.fails_located.1 other)).resolve_right
      fun ⟨_, _, _, _, _, h⟩ => h)
    obtain ⟨written, dotted⟩ := sound_userType h own
    exact ⟨written, fun _ _ _ => dotted⟩

theorem sound_arrayLength {s : Span} {t : TypeName} {length : Option String} {us vs : List Spaced}
    (written : t.Written us) (h : (Rule.meaning call arrayLength).reads o length vs rest) :
    (TypeName.array s t length).Written (us ++ vs) := by
  obtain ⟨a, n, b, rfl, opens, closes, reading⟩ := Rule.reads_between.1 h
  rcases Rule.reads_optional.1 reading with ⟨_, rfl, _, rfl, n, rfl, number, rfl⟩ | ⟨rfl, rfl, -⟩
  · exact .sized written (by simp [opens, closes, number])
  · exact .array written (by simp [opens, closes])

theorem sound_typeName
    (types : ∀ {o t ts rest}, (call .typeName).reads o t ts rest → t.Written ts) {t : TypeName}
    (h : (Rule.meaning call typeNameRule).reads o t ts rest) : t.Written ts ∧ t.Ends rest := by
  have chain := Rule.reads_chain (Q := fun _ t ts rest => t.Written ts ∧
    ∀ s p, t = .user s p → ∀ d n more, rest = d :: n :: more → d.kind = .mark .dot →
      n.kind ≠ .identifier) (fun q => q.1.ne_nil) (sound_plainType types) ?_ h
  · obtain ⟨⟨written, dotted⟩, failure⟩ := chain
    obtain ⟨brackets, sized⟩ := ends_arrayLength failure
    exact ⟨written, brackets, sized, dotted⟩
  · rintro o t length us vs rest ⟨written, -⟩ h
    exact ⟨sound_arrayLength written h, fun _ _ same => by cases same⟩

theorem mem_of_reads_markOf {β : Type} {first : Mark × β} {others : List (Mark × β)} {b : β}
    (h : (Rule.meaning call (markOf first others)).reads o b ts rest) :
    ∃ t, ts = [t] ∧ ∃ m, (m, b) ∈ first :: others ∧ t.kind = .mark m := by
  obtain ⟨t, rfl, mem⟩ := Rule.mem_of_reads_oneOf h
  have mem : (t.kind, b) ∈ (first :: others).map fun p => (Kind.mark p.1, p.2) := mem
  obtain ⟨⟨m, _⟩, member, same⟩ := List.mem_map.1 mem
  obtain ⟨kind, rfl⟩ := Prod.mk.inj same
  exact ⟨t, rfl, m, member, kind.symm⟩

theorem reads_unitWord {u : Unit} :
    (Rule.meaning call unitWord).reads o u ts rest ↔
      ∃ t, ts = [t] ∧ t.kind = .identifier ∧ String.ofList t.chars ∈ unitWords := by
  simp only [unitWord, Rule.reads_word]
  refine exists_congr fun t => and_congr_right fun _ => and_congr_right fun _ => ?_
  split <;> simp [*]

theorem sound_number {e : Expr Unit} (h : (Rule.meaning call number).reads o e ts rest) :
    e.Located o ts ∧ ∃ i s, e = .number i s := by
  obtain ⟨s, rfl, ⟨_, us, vs, rfl, ⟨t, rfl, kind, -⟩, unit⟩, rfl⟩ := Rule.reads_located.1 h
  refine ⟨.leaf ?_ trivial rfl rfl, _, _, rfl⟩
  rcases Rule.reads_optional.1 unit with ⟨_, -, reading⟩ | ⟨-, rfl, -⟩
  · obtain ⟨u, rfl, kind', word⟩ := reads_unitWord.1 reading
    exact .inr ⟨t, u, rfl, kind, kind', word, rfl⟩
  · exact .inl ⟨t, rfl, kind, by simp [core]⟩

theorem sound_string {e : Expr Unit} (h : (Rule.meaning call string).reads o e ts rest) :
    e.Located o ts ∧ ∃ i s, e = .string i s := by
  obtain ⟨l, rfl, t, rfl, kind, rfl⟩ := Rule.reads_located.1 h
  exact ⟨.leaf ⟨t, rfl, kind, rfl⟩ trivial rfl rfl, _, _, rfl⟩

theorem sound_boolean {e : Expr Unit} (h : (Rule.meaning call boolean).reads o e ts rest) :
    e.Located o ts ∧ ∃ i b, e = .bool i b := by
  obtain ⟨b, rfl, reading⟩ := Rule.reads_located.1 h
  obtain ⟨t, rfl, mem⟩ := Rule.mem_of_reads_oneOf reading
  refine ⟨.leaf ⟨t, rfl, ?_⟩ trivial rfl rfl, _, _, rfl⟩
  simp only [List.map, List.mem_cons, Prod.mk.injEq, List.not_mem_nil, or_false] at mem
  rcases mem with ⟨kind, rfl⟩ | ⟨kind, rfl⟩ <;> exact kind

theorem sound_creation
    (types : ∀ {o t ts rest}, (call .typeName).reads o t ts rest → t.Written ts ∧ t.Ends rest)
    {e : Expr Unit} (h : (Rule.meaning call creation).reads o e ts rest) :
    e.Located o ts ∧ ∃ i t, e = .new i t ∧ t.Ends rest := by
  obtain ⟨type, rfl, reading⟩ := Rule.reads_located.1 h
  obtain ⟨t, us, rfl, kind, reading⟩ := Rule.reads_single.1 reading
  obtain ⟨written, ends⟩ := types reading
  exact ⟨.leaf ⟨t, us, rfl, kind, written⟩ trivial rfl rfl, _, _, rfl, ends⟩

theorem sound_payableName {e : Expr Unit} (h : (Rule.meaning call payableName).reads o e ts rest) :
    e.Located o ts ∧ ∃ i t, e = .elementary i t := by
  obtain ⟨_, rfl, t, rfl, kind, -⟩ := Rule.reads_located.1 h
  exact ⟨.leaf ⟨t, rfl, .inr ⟨kind, rfl⟩⟩ trivial rfl rfl, _, _, rfl⟩

theorem sound_elementaryName {e : Expr Unit}
    (h : (Rule.meaning call elementaryName).reads o e ts rest) :
    e.Located o ts ∧ ∃ i t, e = .elementary i t := by
  obtain ⟨type, rfl, reading⟩ := Rule.reads_located.1 h
  obtain ⟨t, rfl, kind, named⟩ := reads_elementaryWord.1 reading
  exact ⟨.leaf ⟨t, rfl, .inl ⟨kind, named⟩⟩ trivial rfl rfl, _, _, rfl⟩

theorem sound_name {e : Expr Unit} (h : (Rule.meaning call name).reads o e ts rest)
    (own : ∀ u ∈ (ts ++ rest).head?, u.kind = .identifier →
      Ty.ofName? (String.ofList u.chars) = none) :
    e.Located o ts ∧ ∃ i n, e = .identifier i n := by
  obtain ⟨i, rfl, reading⟩ := Rule.reads_fmap.1 h
  obtain ⟨t, rfl, kind, rfl⟩ := reads_ident.1 reading
  refine ⟨.leaf ⟨t, rfl, kind, rfl, own t rfl kind⟩ trivial ?_ rfl, _, _, rfl⟩
  simp [Expr.span, Expr.info, untyped, extent, Token.width_cons, Token.Spaced.text,
    Token.Spaced.lexeme, Nat.add_assoc]

section Lists

variable {β : Type} {q : Phrase β} (part : β → Expr Unit) (lead : β → Option String)

/-- Items behind the first of a list are woven with commas. -/
theorem weave_tail
    (items : ∀ {o b ts rest}, (Rule.meaning call q).reads o b ts rest →
      ∃ us vs, ts = us ++ vs ∧ Lead (lead b) us ∧ (part b).Located (o + width us) vs)
    {bs : List β} (h : (Rule.meaning call (mark .comma *> q)).Repeats o bs ts rest)
    (closing : List Spaced) :
    ∃ gs parts, Weave Expr.Located o gs parts (ts ++ closing) ∧
      parts.map Prod.fst = bs.map part ∧
      ListTail (closing.map Spaced.kind) (bs.map lead) gs := by
  induction bs generalizing o ts with
  | nil =>
      obtain ⟨rfl, -⟩ := h
      exact ⟨[closing], [], .last, rfl, closing, rfl, rfl⟩
  | cons b bs ih =>
      obtain ⟨_, vs, rfl, reading, others⟩ := h
      obtain ⟨t, _, rfl, comma, reading⟩ := Rule.reads_single.1 reading
      obtain ⟨us, ws, rfl, leads, located⟩ := items reading
      obtain ⟨gs, parts, weave, same, tail⟩ := ih others
      refine ⟨(t :: us) :: gs, (part b, ws) :: parts, ?_, by simp [same], t, us, gs, rfl, comma,
        leads, tail⟩
      have woven := Weave.part (W := Expr.Located) (o := o) (t :: us) ws
        (by simpa [Token.width_cons, Nat.add_assoc] using located)
        (by simpa [Token.width_cons, Nat.add_assoc] using weave)
      simpa using woven

/-- A list is woven with what stands around it. -/
theorem weave_commas
    (items : ∀ {o b ts rest}, (Rule.meaning call q).reads o b ts rest →
      ∃ us vs, ts = us ++ vs ∧ Lead (lead b) us ∧ (part b).Located (o + width us) vs)
    {bs : List β} (opening closing : List Spaced)
    (h : (Rule.meaning call (commas q)).reads (o + width opening) bs ts rest) :
    ∃ gs parts, Weave Expr.Located o gs parts (opening ++ ts ++ closing) ∧
      parts.map Prod.fst = bs.map part ∧
      Listed (opening.map Spaced.kind) (closing.map Spaced.kind) (bs.map lead) gs := by
  rcases Rule.reads_separated.1 h with ⟨rfl, rfl, -⟩ | ⟨b, bs, us, vs, rfl, rfl, reading, others⟩
  · exact ⟨[opening ++ closing], [], by simpa using .last, rfl, _, rfl, by simp⟩
  · obtain ⟨us, ws, rfl, leads, located⟩ := items reading
    obtain ⟨gs, parts, weave, same, tail⟩ := weave_tail part lead items others closing
    refine ⟨(opening ++ us) :: gs, (part b, ws) :: parts, ?_, by simp [same], opening, us, gs, rfl,
      rfl, leads, tail⟩
    have woven := Weave.part (W := Expr.Located) (o := o) (opening ++ us) ws
      (by simpa [Nat.add_assoc] using located) (by simpa [Nat.add_assoc] using weave)
    simpa using woven

end Lists

section Expressions

variable (types : ∀ {o t ts rest}, (call .typeName).reads o t ts rest → t.Written ts ∧ t.Ends rest)
  (expressions : ∀ {o e ts rest}, (call .expression).reads o e ts rest → Expr.Located o e ts)

include expressions

theorem sound_item {o : Nat} {e : Expr Unit} {ts rest : List Spaced}
    (h : (Rule.meaning call expression).reads o e ts rest) :
    ∃ us vs, ts = us ++ vs ∧ Lead none us ∧ e.Located (o + width us) vs :=
  ⟨[], ts, rfl, rfl, expressions h⟩

theorem sound_namedItem {o : Nat} {p : Ident × Expr Unit} {ts rest : List Spaced}
    (h : (Rule.meaning call (.seq (ident <* mark .colon) expression)).reads o p ts rest) :
    ∃ us vs, ts = us ++ vs ∧ Lead (some p.1.text) us ∧ p.2.Located (o + width us) vs := by
  obtain ⟨us, vs, rfl, reading, reading'⟩ := h
  obtain ⟨us, c, rfl, colon, reading⟩ := Rule.reads_before.1 reading
  obtain ⟨t, rfl, kind, same⟩ := reads_ident.1 reading
  exact ⟨_, vs, rfl, ⟨t, c, rfl, kind, by rw [same], colon⟩, expressions reading'⟩

theorem sound_tuple {e : Expr Unit} (h : (Rule.meaning call tuple).reads o e ts rest) :
    e.Located o ts ∧ ∃ i es, e = .tuple i es := by
  obtain ⟨es, rfl, reading⟩ := Rule.reads_located.1 h
  obtain ⟨a, us, b, rfl, opens, closes, reading⟩ := Rule.reads_between.1 reading
  obtain ⟨gs, parts, weave, same, listed⟩ := weave_commas id (fun _ => none)
    (sound_item expressions) [a] [b] reading
  refine ⟨.node gs parts ?_ trivial rfl ?_ (by simpa [Expr.children] using same) weave,
    _, _, rfl⟩
  · simpa [Expr.Groups, opens, closes] using listed
  · trivial

include types in
theorem sound_atom {e : Expr Unit} (h : (Rule.meaning call atom).reads o e ts rest) :
    e.Located o ts ∧ e.level = 0 ∧ ∀ t, e.created? = some t → t.Ends rest := by
  rcases Rule.reads_orElse.1 h with h | ⟨-, h⟩
  · obtain ⟨located, _, _, rfl⟩ := sound_number h
    exact ⟨located, rfl, fun _ same => by cases same⟩
  rcases Rule.reads_orElse.1 h with h | ⟨-, h⟩
  · obtain ⟨located, _, _, rfl⟩ := sound_string h
    exact ⟨located, rfl, fun _ same => by cases same⟩
  rcases Rule.reads_orElse.1 h with h | ⟨-, h⟩
  · obtain ⟨located, _, _, rfl⟩ := sound_boolean h
    exact ⟨located, rfl, fun _ same => by cases same⟩
  rcases Rule.reads_orElse.1 h with h | ⟨-, h⟩
  · obtain ⟨located, _, _, rfl, ends⟩ := sound_creation types h
    exact ⟨located, rfl, fun _ same => by cases same; exact ends⟩
  rcases Rule.reads_orElse.1 h with h | ⟨-, h⟩
  · obtain ⟨located, _, _, rfl⟩ := sound_payableName h
    exact ⟨located, rfl, fun _ same => by cases same⟩
  rcases Rule.reads_orElse.1 h with h | ⟨other, h⟩
  · obtain ⟨located, _, _, rfl⟩ := sound_elementaryName h
    exact ⟨located, rfl, fun _ same => by cases same⟩
  rcases Rule.reads_orElse.1 h with h | ⟨-, h⟩
  · obtain ⟨located, _, _, rfl⟩ := sound_name h (fails_elementaryWord.1 (Rule.fails_located.1 other))
    exact ⟨located, rfl, fun _ same => by cases same⟩
  · obtain ⟨located, _, _, rfl⟩ := sound_tuple expressions h
    exact ⟨located, rfl, fun _ same => by cases same⟩

theorem sound_callSuffix {e : Expr Unit} {x : Suffix} {us vs rest : List Spaced}
    (base : e.Located o us) (level : e.level = 0)
    (h : (Rule.meaning call callSuffix).reads (o + width us) x vs rest) :
    (x.apply (extent o (us ++ vs)) e).Located o (us ++ vs) ∧
      (x.apply (extent o (us ++ vs)) e).level = 0 ∧
        (x.apply (extent o (us ++ vs)) e).created? = none := by
  obtain ⟨a, ws, b, rfl, opens, closes, reading⟩ := Rule.reads_between.1 h
  rcases Rule.reads_orElse.1 reading with reading | ⟨-, reading⟩
  · obtain ⟨ps, rfl, named⟩ := Rule.reads_fmap.1 reading
    obtain ⟨c, ws, d, rfl, opens', closes', items⟩ := Rule.reads_between.1 named
    obtain ⟨gs, parts, weave, same, listed⟩ := weave_commas Prod.snd
      (fun p : Ident × Expr Unit => some p.1.text) (sound_namedItem expressions)
      (o := o + width us) [a, c] [d, b]
      (by simpa [Token.width_cons, Nat.add_assoc] using items)
    refine ⟨.node ([] :: gs) ((e, us) :: parts) ?_ level rfl ?_ ?_ ?_, rfl, rfl⟩
    · refine ⟨gs, rfl, .inr ⟨by simp, ?_⟩⟩
      simpa [opens, opens', closes, closes', Function.comp_def] using listed
    · trivial
    · simp [same, Expr.children, Suffix.apply]
    · exact Weave.left base (by simpa using weave)
  · obtain ⟨es, rfl, items⟩ := Rule.reads_fmap.1 reading
    obtain ⟨gs, parts, weave, same, listed⟩ := weave_commas id (fun _ => none)
      (sound_item expressions) (o := o + width us) [a] [b] items
    refine ⟨.node ([] :: gs) ((e, us) :: parts) ?_ level rfl ?_ ?_ ?_, rfl, rfl⟩
    · refine ⟨gs, rfl, .inl ⟨rfl, ?_⟩⟩
      simpa [opens, closes] using listed
    · trivial
    · simp [same, Expr.children, Suffix.apply]
    · exact Weave.left base (by simpa using weave)

theorem sound_indexSuffix {e : Expr Unit} {x : Suffix} {us vs rest : List Spaced}
    (base : e.Located o us) (level : e.level = 0) (ends : ∀ t, e.created? = some t → t.Ends (vs ++ rest))
    (h : (Rule.meaning call (Suffix.index <$> brackets (.optional expression))).reads
      (o + width us) x vs rest) :
    (x.apply (extent o (us ++ vs)) e).Located o (us ++ vs) ∧
      (x.apply (extent o (us ++ vs)) e).level = 0 ∧
        (x.apply (extent o (us ++ vs)) e).created? = none := by
  obtain ⟨k, rfl, inner⟩ := Rule.reads_fmap.1 h
  obtain ⟨a, ws, b, rfl, opens, closes, reading⟩ := Rule.reads_between.1 inner
  rcases Rule.reads_optional.1 reading with ⟨k, rfl, index⟩ | ⟨rfl, rfl, -⟩
  · refine ⟨.node [[], [a], [b]] [(e, us), (k, ws)] ⟨a, b, rfl, opens, closes⟩
      level rfl ?_ rfl ?_, rfl, rfl⟩
    · -- A number alone would have been read as the length of an array.
      cases created : e.created? with
      | none => exact .inl created
      | some t =>
          refine .inr ?_
          rintro base n parts number
          cases parts
          exact (ends t created).2.1 a n b rest rfl opens number closes
    · have woven := Weave.left base (.part [a] ws (expressions index)
        (.last (g := [b])))
      simpa using woven
  · refine ⟨.node [[], [a, b]] [(e, us)] ⟨_, rfl, by simp [opens, closes]⟩
      ⟨level, ?_⟩ rfl ?_ rfl ?_, rfl, rfl⟩
    · refine Option.eq_none_iff_forall_ne_some.2 fun t created => ?_
      exact (ends t created).1 a b rest rfl opens closes
    · trivial
    · exact Weave.left base .last

theorem sound_suffix {e : Expr Unit} {x : Suffix} {us vs rest : List Spaced}
    (base : e.Located o us) (level : e.level = 0) (ends : ∀ t, e.created? = some t → t.Ends (vs ++ rest))
    (h : (Rule.meaning call suffix).reads (o + width us) x vs rest) :
    (x.apply (extent o (us ++ vs)) e).Located o (us ++ vs) ∧
      (x.apply (extent o (us ++ vs)) e).level = 0 ∧
        (x.apply (extent o (us ++ vs)) e).created? = none := by
  rcases Rule.reads_orElse.1 h with h | ⟨-, h⟩
  · exact sound_callSuffix expressions base level h
  rcases Rule.reads_orElse.1 h with h | ⟨-, h⟩
  · obtain ⟨m, rfl, inner⟩ := Rule.reads_fmap.1 h
    obtain ⟨d, _, rfl, dot, reading⟩ := Rule.reads_single.1 inner
    obtain ⟨t, rfl, kind, rfl⟩ := reads_ident.1 reading
    refine ⟨.node [[], [d, t]] [(e, us)] ⟨d, t, rfl, dot, kind, rfl⟩
      ⟨level, ?_⟩ rfl ?_ rfl (Weave.left base .last), rfl, rfl⟩
    · intro s p created
      exact (ends _ created).2.2 s p rfl d t rest rfl dot kind
    · trivial
  rcases Rule.reads_orElse.1 h with h | ⟨-, h⟩
  · exact sound_indexSuffix expressions base level ends h
  · obtain ⟨t, rfl, mem⟩ := Rule.mem_of_reads_oneOf h
    obtain ⟨op, rfl, kind, step⟩ : ∃ op, x = .step op ∧ t.kind = op.kind ∧
        (op = .increment ∨ op = .decrement) := by
      simp only [List.map, List.mem_cons, Prod.mk.injEq, List.not_mem_nil, or_false] at mem
      rcases mem with ⟨kind, rfl⟩ | ⟨kind, rfl⟩
      · exact ⟨.increment, rfl, kind, .inl rfl⟩
      · exact ⟨.decrement, rfl, kind, .inr rfl⟩
    refine ⟨.node [[], [t]] [(e, us)] ⟨t, rfl, kind, step⟩ level rfl ?_ rfl
      (Weave.left base .last), rfl, rfl⟩
    trivial

include types in
theorem sound_suffixed {e : Expr Unit} (h : (Rule.meaning call suffixed).reads o e ts rest) :
    e.Located o ts ∧ e.level = 0 := by
  have chain := Rule.reads_chain (Q := fun o e ts rest => e.Located o ts ∧ e.level = 0 ∧
    ∀ t, e.created? = some t → t.Ends rest) (fun q => q.1.ne_nil) (sound_atom types expressions) ?_ h
  · exact ⟨chain.1.1, chain.1.2.1⟩
  · rintro o e x us vs rest ⟨base, level, ends⟩ h
    obtain ⟨located, level', other⟩ := sound_suffix expressions base level ends h
    exact ⟨located, level', fun t same => by rw [other] at same; cases same⟩

omit expressions in
theorem sound_unaryOperator {op : UnaryOp}
    (h : (Rule.meaning call unaryOperator).reads o op ts rest) :
    ∃ t, ts = [t] ∧ t.kind = op.kind := by
  rcases Rule.reads_orElse.1 h with h | ⟨-, h⟩
  · obtain ⟨t, rfl, mem⟩ := Rule.mem_of_reads_oneOf h
    refine ⟨t, rfl, ?_⟩
    simp only [List.map, List.mem_cons, Prod.mk.injEq, List.not_mem_nil, or_false] at mem
    rcases mem with ⟨kind, rfl⟩ | ⟨kind, rfl⟩ | ⟨kind, rfl⟩ | ⟨kind, rfl⟩ | ⟨kind, rfl⟩ <;> exact kind
  · obtain ⟨_, rfl, t, rfl, kind, -⟩ := Rule.reads_fmap.1 h
    exact ⟨t, rfl, kind⟩

include types in
theorem sound_operand
    (operands : ∀ {o e ts rest}, (call .operand).reads o e ts rest →
      Expr.Located o e ts ∧ Expr.level e ≤ 1)
    {e : Expr Unit} (h : (Rule.meaning call operandRule).reads o e ts rest) :
    e.Located o ts ∧ e.level ≤ 1 := by
  rcases Rule.reads_orElse.1 h with h | ⟨-, h⟩
  · obtain ⟨⟨op, e⟩, rfl, us, vs, rfl, reading, reading'⟩ := Rule.reads_located.1 h
    obtain ⟨t, rfl, kind⟩ := sound_unaryOperator reading
    obtain ⟨located, level⟩ := operands reading'
    refine ⟨.node [[t], []] [(e, vs)] ⟨t, rfl, kind⟩ level rfl ?_ rfl ?_,
      Nat.le_refl 1⟩
    · trivial
    · have woven := Weave.part (W := Expr.Located) (o := o) [t] _ located (.last (g := []))
      simpa using woven
  · obtain ⟨located, level⟩ := sound_suffixed types expressions h
    exact ⟨located, by omega⟩

end Expressions

/-- The phrase for the operators of the first `n` levels. -/
def tier (n : Nat) : Phrase (Expr Unit) := (levels.take n).foldl leveled operand

/-- The operators of each level, by their marks. -/
theorem mem_levels {n : Nat} {level : Level} (h : levels[n]? = some level) :
    ∀ p ∈ level.1 :: level.2, p.1 = p.2.mark ∧ p.2.level = n + 2 := by
  have all : ∀ q ∈ levels.zipIdx, ∀ p ∈ q.1.1 :: q.1.2, p.1 = p.2.mark ∧ p.2.level = q.2 + 2 := by
    decide
  exact all (level, n) (List.mem_zipIdx_iff_getElem?.2 h)

theorem tier_succ {n : Nat} {level : Level} (h : levels[n]? = some level) :
    tier (n + 1) = leveled (tier n) level := by
  simp [tier, List.take_add_one, h]

theorem sound_level {n : Nat} {level : Level} (h : levels[n]? = some level) {op : BinaryOp}
    (reading : (Rule.meaning call (markOf level.1 level.2)).reads o op ts rest) :
    ∃ t, ts = [t] ∧ t.kind = .mark op.mark ∧ op.level = n + 2 := by
  obtain ⟨t, rfl, m, mem, kind⟩ := mem_of_reads_markOf reading
  obtain ⟨mark, number⟩ := mem_levels h _ mem
  exact ⟨t, rfl, kind.trans (congrArg _ mark), number⟩

/-- One more operator of a level behind what that level has read. -/
theorem sound_operation {n : Nat} {level : Level} (found : levels[n]? = some level)
    (tighter : ∀ {o e ts rest}, (Rule.meaning call (tier n)).reads o e ts rest →
      Expr.Located o e ts ∧ Expr.level e ≤ n + 1)
    {l : Expr Unit} {p : BinaryOp × Expr Unit} {us vs : List Spaced} (located : l.Located o us)
    (loose : l.level ≤ n + 2)
    (h : (Rule.meaning call (.seq (markOf level.1 level.2) (tier n))).reads (o + width us) p vs rest) :
    (Expr.binary (untyped (extent o (us ++ vs))) p.1 l p.2).Located o (us ++ vs) ∧
      (Expr.binary (untyped (extent o (us ++ vs))) p.1 l p.2).level ≤ n + 2 := by
  obtain ⟨op, r⟩ := p
  obtain ⟨_, vs, rfl, operator, reading⟩ := h
  obtain ⟨t, rfl, kind, number⟩ := sound_level found operator
  obtain ⟨located', tight⟩ := tighter reading
  have number : op.level = n + 2 := number
  have tight : r.level ≤ n + 1 := tight
  refine ⟨.node [[], [t], []] [(l, us), (r, vs)] ⟨t, rfl, kind⟩
    (show l.level ≤ op.level ∧ r.level < op.level by omega) rfl ?_ rfl ?_, Nat.le_of_eq number⟩
  · trivial
  · have woven := Weave.left located (.part [t] _ located' (.last (g := [])))
    simpa using woven

/-- Operators of one level associate to the left, and what stands between them
is of a tighter level. -/
theorem sound_tier
    (operands : ∀ {o e ts rest}, (call .operand).reads o e ts rest →
      Expr.Located o e ts ∧ Expr.level e ≤ 1) {n : Nat} (h : n ≤ levels.length) {e : Expr Unit}
    (reading : (Rule.meaning call (tier n)).reads o e ts rest) :
    e.Located o ts ∧ e.level ≤ n + 1 := by
  induction n generalizing o e ts rest with
  | zero => exact operands reading
  | succ n ih =>
      obtain ⟨level, found⟩ : ∃ level, levels[n]? = some level :=
        ⟨levels[n], List.getElem?_eq_getElem h⟩
      rw [tier_succ found] at reading
      have tighter : ∀ {o e ts rest}, (Rule.meaning call (tier n)).reads o e ts rest →
          Expr.Located o e ts ∧ Expr.level e ≤ n + 1 := ih (by omega)
      have chain := Rule.reads_chain (Q := fun o e ts _ => e.Located o ts ∧ e.level ≤ n + 2)
        (fun q => q.1.ne_nil) (fun reading => (tighter reading).imp_right fun level => by omega)
        (fun q reading => sound_operation found tighter q.1 q.2 reading) reading
      exact chain.1

/-- What does not follow an expression: an assignment, if another expression
comes behind its operator. -/
def Unassigned (source : Source) (o : Nat) (rest : List Spaced) : Prop :=
  Phrase.Fails source (.seq assignOperator expression) o rest

theorem sound_conditional
    (operands : ∀ {o e ts rest}, (call .operand).reads o e ts rest →
      Expr.Located o e ts ∧ Expr.level e ≤ 1) {source : Source}
    (expressions : ∀ {o e ts rest}, (call .expression).reads o e ts rest →
      Expr.Located o e ts ∧ Unassigned source (o + width ts) rest)
    {e : Expr Unit} (h : (Rule.meaning call conditional).reads o e ts rest) :
    e.Located o ts ∧ e.level ≤ 13 ∧ (e.level ≤ 12 ∨ Unassigned source (o + width ts) rest) := by
  obtain ⟨⟨c, branches⟩, same, us, vs, rfl, reading, reading'⟩ := Rule.reads_located.1 h
  obtain ⟨located, level⟩ := sound_tier operands (n := 11) (by decide) reading
  rcases Rule.reads_optional.1 reading' with ⟨⟨t, f⟩, rfl, ws, xs, rfl, first, second⟩ | ⟨rfl, rfl, -⟩
  · obtain ⟨q, ws, rfl, question, reading⟩ := Rule.reads_single.1 first
    obtain ⟨k, xs, rfl, colon, reading'⟩ := Rule.reads_single.1 second
    obtain ⟨located', -⟩ := expressions reading
    obtain ⟨located'', free⟩ := expressions reading'
    subst same
    refine ⟨.node [[], [q], [k], []] [(c, us), (t, ws), (f, xs)]
      ⟨q, k, rfl, question, colon⟩ level rfl ?_ rfl ?_, Nat.le_refl 13, .inr ?_⟩
    · trivial
    · have woven := Weave.left located (.part [q] _ located' (.part [k] xs
        (by simpa [Token.width_cons, Nat.add_assoc] using located'') (.last (g := []))))
      simpa using woven
    · simpa [Token.width_cons, Nat.add_assoc] using free
  · subst same
    have level : c.level ≤ 12 := level
    rw [List.append_nil]
    exact ⟨located, show c.level ≤ 13 by omega, .inl level⟩

theorem sound_assignOperator {op : AssignOp}
    (h : (Rule.meaning call assignOperator).reads o op ts rest) :
    ∃ t, ts = [t] ∧ t.kind = .mark op.mark := by
  have marks : ∀ p ∈ ([(.assign, .assign), (.plusAssign, .add), (.minusAssign, .subtract),
      (.starAssign, .multiply), (.slashAssign, .divide), (.percentAssign, .modulo),
      (.pipeAssign, .bitOr), (.caretAssign, .bitXor), (.ampAssign, .bitAnd),
      (.shiftLeftAssign, .shiftLeft), (.shiftRightAssign, .shiftRight)] : List (Mark × AssignOp)),
      p.1 = p.2.mark := by
    decide
  obtain ⟨t, rfl, m, mem, kind⟩ := mem_of_reads_markOf h
  exact ⟨t, rfl, kind.trans (congrArg _ (marks _ mem))⟩

/-- A conditional takes an assignment behind it into its last branch, so it is
never the left side of one. -/
theorem sound_expression
    (operands : ∀ {o e ts rest}, (call .operand).reads o e ts rest →
      Expr.Located o e ts ∧ Expr.level e ≤ 1) {source : Source}
    (expressions : ∀ {o e ts rest}, (call .expression).reads o e ts rest →
      Expr.Located o e ts ∧ Unassigned source (o + width ts) rest)
    (assigned : ∀ {o p ts rest}, Holds source o (ts ++ rest) →
      (Rule.meaning call (.seq assignOperator expression)).reads o p ts rest →
      ¬ Unassigned source o (ts ++ rest))
    (unassigned : ∀ {o xs}, (Rule.meaning call (.seq assignOperator expression)).fails o xs →
      Unassigned source o xs)
    {e : Expr Unit} (holds : Holds source o (ts ++ rest))
    (h : (Rule.meaning call expressionRule).reads o e ts rest) :
    e.Located o ts ∧ Unassigned source (o + width ts) rest := by
  obtain ⟨⟨l, value⟩, same, us, vs, rfl, reading, reading'⟩ := Rule.reads_located.1 h
  obtain ⟨located, -, level⟩ := sound_conditional operands expressions reading
  rcases Rule.reads_optional.1 reading' with ⟨⟨op, r⟩, rfl, assigns⟩ | ⟨rfl, rfl, failure⟩
  · rw [List.append_assoc] at holds
    have tight : l.level ≤ 12 := level.resolve_right (assigned holds.right assigns)
    obtain ⟨_, ws, rfl, operator, reading⟩ := assigns
    obtain ⟨t, rfl, kind⟩ := sound_assignOperator operator
    obtain ⟨located', free⟩ := expressions reading
    subst same
    refine ⟨.node [[], [t], []] [(l, us), (r, ws)] ⟨t, rfl, kind⟩ tight rfl
      ?_ rfl ?_, ?_⟩
    · trivial
    · have woven := Weave.left located (.part [t] _ located' (.last (g := [])))
      simpa using woven
    · simpa [Token.width_cons, Nat.add_assoc] using free
  · subst same
    rw [List.append_nil]
    exact ⟨located, unassigned failure⟩

end SafeSubset.Grammar.Phrase
