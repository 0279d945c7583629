import SafeSubset.Proofs.Grammar.Occupies

/-! Every node of a file's tree stands where its span says: each phrase lays out the
nodes that it builds among the tokens that it takes. -/
namespace SafeSubset.Grammar.Phrase

open Token (Kind Spaced Lexeme Holds lexemes width extent)

variable {source : Source} {P : Property} {o : Nat} {ts rest : List Spaced} {α β : Type}

section Combinators

variable {call : (n : Symbol) → Meaning n.Value} {W : Nat → Construct → List Spaced → Prop}
  {r : Phrase α} {f g : α → List Construct} {x : α → Construct}

theorem Lays.congr (lays : Lays call W r f) (same : ∀ a, f a = g a) : Lays call W r g where
  laid reading := same _ ▸ lays.laid reading

theorem Lays.each (lays : Lays call W r fun a => [x a]) :
    Lays call W (.many r) fun as => as.map x :=
  .congr (.many lays) fun _ => List.map_eq_flatMap.symm

theorem Lays.list (lays : Lays call W r fun a => [x a]) :
    Lays call W (Phrase.commas r) fun as => as.map x :=
  .congr (.commas lays) fun _ => List.map_eq_flatMap.symm

theorem Lays.option (lays : Lays call W r fun a => [x a]) :
    Lays call W (.optional r) fun a => a.toList.map x :=
  .congr (.optional lays) fun a => by cases a <;> rfl

/-- A phrase that takes the tokens of a node, and with them those of its parts. -/
structure Frames (source : Source) (P : Property) (r : Phrase α) (x : α → Construct) : Prop where
  frame : ∀ {o a ts rest}, (Rule.meaning (Symbol.known source P) r).reads o a ts rest →
    ts ≠ [] ∧ (x a).span = extent o ts ∧ Laid (Construct.Occupies source) o (x a).parts ts

/-- The parts that a phrase lays out, with the place of nodes all through. -/
abbrev Parts (source : Source) (P : Property) (r : Phrase α) (f : α → List Construct) : Prop :=
  Lays (Symbol.known source P) (Construct.Occupies source) r f

theorem Frames.located {build : Span → α → β} {y : β → Construct} (parts : Parts source P r f)
    (consumes : r.consumes = true) (span : ∀ s a, (y (build s a)).span = s)
    (same : ∀ s a, (y (build s a)).parts = f a) : Frames source P (Rule.located build r) y where
  frame := by
    intro o b ts rest h
    obtain ⟨a, rfl, reading⟩ := Rule.reads_located.1 h
    rw [span, same]
    exact ⟨Rule.taken_ne_nil known_ne_nil consumes reading, rfl, parts.laid reading⟩

theorem Frames.fmap {h : α → β} {y : β → Construct} (frames : Frames source P r x)
    (span : ∀ a, (y (h a)).span = (x a).span) (same : ∀ a, (y (h a)).parts = (x a).parts) :
    Frames source P (h <$> r) y where
  frame := by
    rintro o _ ts rest ⟨a, rfl, reading⟩
    rw [span, same]
    exact frames.frame reading

theorem Frames.orElse {s : Phrase α} (first : Frames source P r x) (second : Frames source P s x) :
    Frames source P (r <|> s) x where
  frame := by
    intro o a ts rest h
    rcases Rule.reads_orElse.1 h with h | ⟨-, h⟩
    · exact first.frame h
    · exact second.frame h

/-- A phrase whose node occupies the tokens that it takes. -/
structure Yields (source : Source) (P : Property) (r : Phrase α) (x : α → Construct) : Prop where
  occupies : ∀ {o a ts rest}, (Rule.meaning (Symbol.known source P) r).reads o a ts rest →
    (x a).Occupies source o ts

theorem Yields.parts (yields : Yields source P r x) : Parts source P r fun a => [x a] where
  laid h := .single (yields.occupies h)

theorem Frames.yields (frames : Frames source P r x)
    (takes : ∀ {o a ts rest}, Phrase.Reads source r o a ts rest → Takes source o (x a) ts) :
    Yields source P r x where
  occupies := by
    intro o a ts rest h
    obtain ⟨some, span, laid⟩ := frames.frame h
    exact .intro some span (takes (reads_of_known h)) laid

end Combinators

section Words

theorem span_lexeme (t : Spaced) : (t.lexeme o).span = extent o [t] := by
  simp [extent, Token.width_cons, Token.Spaced.text, Token.Spaced.lexeme, Nat.add_assoc]

theorem yields_ident : Yields source P ident .ident where
  occupies := by
    intro o i ts rest h
    have reading := reads_of_known h
    obtain ⟨t, rfl, kind, rfl⟩ := reads_ident.1 h
    exact .intro (by simp) (span_lexeme t) ⟨rest, reading⟩ (.nil _ _)

theorem parts_ident : Parts source P ident fun i => [.ident i] := yields_ident.parts

theorem parts_path : Parts source P path fun p => p.components.map .ident := by
  refine .fmap (.separated1 parts_ident) fun p => ?_
  rw [components_ofComponents, List.map_cons, List.map_eq_flatMap]
  rfl

end Words

section Nonterminals

variable (types : Parts source P typeName fun t => [.typeName t])
  (written : ∀ {o t ts rest}, (Symbol.known source P .typeName).reads o t ts rest → t.Written ts)

include types

theorem frames_plainType :
    Frames source P (mappingType <|> elementaryType <|> userType) .typeName := by
  refine .orElse ?_ (.orElse ?_ ?_)
  · exact .located (.right (.between (.seq (.left types) types))) rfl (fun _ _ => rfl) fun _ _ => rfl
  · exact .located .silent rfl (fun _ _ => rfl) fun _ _ => rfl
  · exact .located parts_path rfl (fun _ _ => rfl) fun _ _ => rfl

include written

theorem yields_typeNameRule : Yields source P typeNameRule .typeName where
  occupies := by
    intro o t ts rest h
    have chain := Rule.reads_chain (Q := fun o t ts _ => t.Written ts ∧
      (Construct.typeName t).Occupies source o ts) (fun q => q.1.ne_nil) ?_ ?_ h
    · exact chain.1.2
    · intro o t ts rest h
      obtain ⟨some, span, laid⟩ := (frames_plainType types).frame h
      have own := (sound_plainType written h).1
      exact ⟨own, .intro some span own laid⟩
    · rintro o t length us vs rest ⟨own, occupies⟩ h
      have whole := sound_arrayLength (s := extent o (us ++ vs)) own h
      exact ⟨whole, .intro whole.ne_nil rfl whole (Laid.append (.single occupies) (.nil _ vs))⟩

end Nonterminals

section Expressions

/-- The nodes in what stands behind an atom. -/
def Suffix.parts : Suffix → List Construct
  | .call args names => argumentParts names args
  | .member m => [.ident m]
  | .index k => k.toList.map .expr
  | .step _ => []

theorem Suffix.parts_apply (s : Span) (e : Expr Unit) (x : Suffix) :
    (x.apply s e).parts = .expr e :: x.parts := by
  cases x <;> rfl

theorem Suffix.span_apply (s : Span) (e : Expr Unit) (x : Suffix) : (x.apply s e).span = s := by
  cases x <;> rfl

theorem argumentParts_unzip (ps : List (Ident × Expr Unit)) :
    argumentParts (ps.map Prod.fst) (ps.map Prod.snd) =
      ps.flatMap fun p => [.ident p.1] ++ [.expr p.2] := by
  induction ps with
  | nil => rfl
  | cons p ps ih => simp [argumentParts, ih]

theorem argumentParts_nil (es : List (Expr Unit)) : argumentParts [] es = es.map .expr := by
  cases es <;> rfl

variable (types : Parts source P typeName fun t => [.typeName t])
  (expressions : Parts source P expression fun e => [.expr e])
  (operands : Yields source P operand .expr)
  (written : ∀ {o t ts rest}, (Symbol.known source P .typeName).reads o t ts rest →
    t.Written ts ∧ t.Ends rest)
  (located : ∀ {o e ts rest}, (Symbol.known source P .expression).reads o e ts rest →
    Expr.Located o e ts ∧ Unassigned source (o + width ts) rest)
  (tight : ∀ {o e ts rest}, (Symbol.known source P .operand).reads o e ts rest →
    Expr.Located o e ts ∧ Expr.level e ≤ 1)

include expressions

theorem parts_callSuffix : Parts source P callSuffix Suffix.parts := by
  refine .between (.orElse (.fmap (.between (.commas (.seq (.left parts_ident) expressions))) ?_)
    (.fmap (.list expressions) ?_))
  · exact argumentParts_unzip
  · exact argumentParts_nil

theorem parts_suffix : Parts source P suffix Suffix.parts := by
  refine .orElse (parts_callSuffix expressions) (.orElse ?_ (.orElse ?_ ?_))
  · exact .fmap (.right parts_ident) fun _ => rfl
  · exact .fmap (.between (.option expressions)) fun _ => rfl
  · refine ⟨fun h => ?_⟩
    obtain ⟨t, rfl, mem⟩ := Rule.mem_of_reads_oneOf h
    simp only [List.map, List.mem_cons, Prod.mk.injEq, List.not_mem_nil, or_false] at mem
    rcases mem with ⟨-, rfl⟩ | ⟨-, rfl⟩ <;> exact .nil _ _

omit expressions in
theorem frames_name : Frames source P name .expr where
  frame := by
    intro o e ts rest h
    obtain ⟨i, rfl, reading⟩ := Rule.reads_fmap.1 h
    obtain ⟨t, rfl, kind, rfl⟩ := reads_ident.1 reading
    exact ⟨by simp, span_lexeme t, .nil _ _⟩

include types in
theorem frames_atom : Frames source P atom .expr := by
  refine .orElse (.located .silent rfl (fun _ _ => rfl) fun _ _ => rfl) ?_
  refine .orElse (.located .silent rfl (fun _ _ => rfl) fun _ _ => rfl) ?_
  refine .orElse (.located .silent rfl (fun _ _ => rfl) fun _ _ => rfl) ?_
  refine .orElse (.located (.right types) rfl (fun _ _ => rfl) fun _ _ => rfl) ?_
  refine .orElse (.located .silent rfl (fun _ _ => rfl) fun _ _ => rfl) ?_
  refine .orElse (.located .silent rfl (fun _ _ => rfl) fun _ _ => rfl) ?_
  refine .orElse frames_name ?_
  exact .located (.between (.list expressions)) rfl (fun _ _ => rfl) fun _ _ => rfl

include types written located in
theorem yields_suffixed : Yields source P suffixed .expr where
  occupies := by
    intro o e ts rest h
    have own : ∀ {o e ts rest}, (Symbol.known source P .expression).reads o e ts rest →
        Expr.Located o e ts := fun h => (located h).1
    have chain := Rule.reads_chain (Q := fun o e ts rest =>
      (e.Located o ts ∧ e.level = 0 ∧ ∀ t, e.created? = some t → t.Ends rest) ∧
        (Construct.expr e).Occupies source o ts) (fun q => q.1.1.ne_nil) ?_ ?_ h
    · exact chain.1.2
    · intro o e ts rest h
      have sound := sound_atom written own h
      obtain ⟨some, span, laid⟩ := (frames_atom types expressions).frame h
      exact ⟨sound, .intro some span sound.1 laid⟩
    · rintro o e x us vs rest ⟨⟨base, level, ends⟩, occupies⟩ h
      obtain ⟨whole, level', other⟩ := sound_suffix own base level ends h
      refine ⟨⟨whole, level', fun t same => by rw [other] at same; cases same⟩, ?_⟩
      refine .intro whole.ne_nil (x.span_apply _ _) whole ?_
      have laid := Laid.append (.single occupies) ((parts_suffix expressions).laid h)
      exact (congrArg (fun xs => Laid _ o xs _) (x.parts_apply _ _)).mpr laid

include types operands written located tight in
theorem yields_operandRule : Yields source P operandRule .expr where
  occupies := by
    intro o e ts rest h
    have sound := sound_operand written (fun h => (located h).1) tight h
    rcases Rule.reads_orElse.1 h with h | ⟨-, h⟩
    · have frames : Frames source P
          (Rule.located (fun s p => .unary (untyped s) p.1 .before p.2) (.seq unaryOperator operand))
          Construct.expr :=
        .located (.seq .silent operands.parts) rfl (fun _ _ => rfl) fun _ _ => rfl
      obtain ⟨some, span, laid⟩ := frames.frame h
      exact .intro some span sound.1 laid
    · exact (yields_suffixed types expressions written located).occupies h

include operands tight in
omit expressions in
theorem yields_tier {n : Nat} (h : n ≤ levels.length) : Yields source P (tier n) .expr := by
  induction n with
  | zero => exact operands
  | succ n ih =>
      obtain ⟨level, found⟩ : ∃ level, levels[n]? = some level :=
        ⟨levels[n], List.getElem?_eq_getElem h⟩
      have ih := ih (by omega)
      have tighter : ∀ {o e ts rest},
          (Rule.meaning (Symbol.known source P) (tier n)).reads o e ts rest →
            Expr.Located o e ts ∧ Expr.level e ≤ n + 1 := sound_tier tight (by omega)
      rw [tier_succ found]
      refine ⟨fun h => ?_⟩
      have chain := Rule.reads_chain (Q := fun o e ts _ =>
        (e.Located o ts ∧ e.level ≤ n + 2) ∧ (Construct.expr e).Occupies source o ts)
        (fun q => q.1.1.ne_nil) ?_ ?_ h
      · exact chain.1.2
      · intro o e ts rest h
        obtain ⟨sound, level⟩ := tighter h
        exact ⟨⟨sound, by omega⟩, ih.occupies h⟩
      · rintro o l p us vs rest ⟨⟨left, loose⟩, occupies⟩ h
        have whole := sound_operation found tighter left loose h
        refine ⟨whole, .intro whole.1.ne_nil rfl whole.1 ?_⟩
        exact .append (.single occupies) ((Lays.seq .silent ih.parts).laid h)

include operands located tight in
theorem yields_conditional : Yields source P conditional .expr where
  occupies := by
    intro o e ts rest h
    have sound := sound_conditional tight located h
    obtain ⟨⟨c, branches⟩, same, us, vs, rfl, reading, reading'⟩ := Rule.reads_located.1 h
    have condition := (yields_tier operands tight (n := 11) (by decide)).occupies reading
    cases branches with
    | none =>
        subst same
        obtain ⟨_, absent, -⟩ | ⟨-, rfl, -⟩ := Rule.reads_optional.1 reading'
        · cases absent
        · rwa [List.append_nil]
    | some branches =>
        subst same
        have both : Parts source P (.seq (mark .question *> expression) (mark .colon *> expression)) _ :=
          .seq (.right expressions) (.right expressions)
        exact .intro sound.1.ne_nil rfl sound.1
          (Laid.append (.single condition) ((Lays.optional both).laid reading'))

include operands located tight in
theorem occupies_expression {e : Expr Unit} (holds : Holds source o (ts ++ rest))
    (h : (Rule.meaning (Symbol.known source P) expressionRule).reads o e ts rest) :
    (Construct.expr e).Occupies source o ts := by
  have sound := sound_expression tight located not_unassigned unassigned holds h
  obtain ⟨⟨l, value⟩, same, us, vs, rfl, reading, reading'⟩ := Rule.reads_located.1 h
  have left := (yields_conditional expressions operands located tight).occupies reading
  cases value with
  | none =>
      subst same
      obtain ⟨_, absent, -⟩ | ⟨-, rfl, -⟩ := Rule.reads_optional.1 reading'
      · cases absent
      · rwa [List.append_nil]
  | some value =>
      subst same
      have assigned : Parts source P (.seq assignOperator expression) _ := .seq .silent expressions
      exact .intro sound.1.ne_nil rfl sound.1
        (Laid.append (.single left) ((Lays.optional assigned).laid reading'))

end Expressions

section Statements

variable (types : Parts source P typeName fun t => [.typeName t])
  (expressions : Parts source P expression fun e => [.expr e])
  (statements : Parts source P statement fun s => [.stmt s])

theorem frames_jumpStatement : Frames source P jumpStatement .stmt where
  frame := by
    intro o _ ts rest h
    obtain ⟨jump, rfl, reading⟩ := Rule.reads_located.1 h
    obtain ⟨us, t, rfl, -, reading⟩ := Rule.reads_before.1 reading
    obtain ⟨u, rfl, mem⟩ := Rule.mem_of_reads_oneOf reading
    simp only [List.map, List.mem_cons, Prod.mk.injEq, List.not_mem_nil, or_false] at mem
    rcases mem with ⟨-, rfl⟩ | ⟨-, rfl⟩ | ⟨-, rfl⟩ <;> exact ⟨by simp, rfl, .nil _ _⟩

include statements in
theorem yields_block : Yields source P block .block :=
  Frames.yields (.located (.between (.each statements)) rfl (fun _ _ => rfl) fun _ _ => rfl)
    fun h => ⟨_, h⟩

include expressions

theorem parts_initializer : Parts source P initializer fun v => v.toList.map .expr :=
  .option (.right expressions)

include types

theorem yields_localVariable : Yields source P localVariable .localVariable :=
  Frames.yields (.located (.seq (.left types) (.seq parts_ident (parts_initializer expressions))) rfl
    (fun _ _ => rfl) fun _ _ => rfl) fun h => ⟨_, h⟩

theorem yields_forInitial : Yields source P forInitial .stmt := by
  refine Frames.yields (.orElse ?_ ?_) fun h => ⟨_, .inr h⟩
  · exact .located (yields_localVariable types expressions).parts rfl (fun _ _ => rfl) fun _ _ => rfl
  · exact .located expressions rfl (fun _ _ => rfl) fun _ _ => rfl

include statements

omit types in
theorem frames_ifStatement : Frames source P ifStatement .stmt :=
  .located (.seq (.right (.between expressions)) (.seq statements (.option (.right statements)))) rfl
    (fun _ _ => rfl) fun _ _ => rfl

omit types in
theorem frames_whileStatement : Frames source P whileStatement .stmt :=
  .located (.seq (.right (.between expressions)) statements) rfl (fun _ _ => rfl) fun _ _ => rfl

omit types in
theorem frames_doStatement : Frames source P doStatement .stmt :=
  .located (.seq (.right statements) (.left (.right (.between expressions)))) rfl (fun _ _ => rfl)
    fun _ _ => rfl

theorem frames_forStatement : Frames source P forStatement .stmt := by
  have initial := (yields_forInitial types expressions).parts
  have head := Lays.seq (.left (s := mark .semicolon) (.option initial))
    (.seq (.left (s := mark .semicolon) (.option expressions)) (.option expressions))
  exact .located (.seq (.right (.between head)) statements) rfl (fun _ _ => rfl) fun _ _ => rfl

theorem yields_statementRule : Yields source P statementRule .stmt := by
  have locals := (yields_localVariable types expressions).parts
  refine Frames.yields ?_ fun h => ⟨_, .inl h⟩
  have block : Frames source P block .block :=
    .located (.between (.each statements)) rfl (fun _ _ => rfl) fun _ _ => rfl
  refine .orElse (.fmap block (fun _ => rfl) fun _ => rfl) ?_
  refine .orElse (frames_ifStatement expressions statements) ?_
  refine .orElse (frames_whileStatement expressions statements) ?_
  refine .orElse (frames_doStatement expressions statements) ?_
  refine .orElse (frames_forStatement types expressions statements) ?_
  refine .orElse (.located (.left (.right (.option expressions))) rfl (fun _ _ => rfl) fun _ _ => rfl) ?_
  refine .orElse (.located (.left (.right expressions)) rfl (fun _ _ => rfl) fun _ _ => rfl) ?_
  refine .orElse frames_jumpStatement ?_
  refine .orElse (.located (.left locals) rfl (fun _ _ => rfl) fun _ _ => rfl) ?_
  exact .located (.left expressions) rfl (fun _ _ => rfl) fun _ _ => rfl

end Statements

section Definitions

variable (types : Parts source P typeName fun t => [.typeName t])
  (expressions : Parts source P expression fun e => [.expr e])
  (statements : Parts source P statement fun s => [.stmt s])

section Heads

include types

theorem yields_parameter : Yields source P parameter .parameter :=
  Frames.yields (.located (.seq (.left types) (.option parts_ident)) rfl (fun _ _ => rfl) fun _ _ => rfl)
    fun h => ⟨_, h⟩

theorem parts_parameters : Parts source P parameters fun ps => ps.map .parameter :=
  .between (.list (yields_parameter types).parts)

theorem yields_field : Yields source P field .field :=
  Frames.yields (.located (.seq types (.left parts_ident)) rfl (fun _ _ => rfl) fun _ _ => rfl)
    fun h => ⟨_, h⟩

omit types
include expressions

theorem yields_invocation : Yields source P invocation .invocation :=
  Frames.yields (.located (.seq parts_ident (.optional (.between (.list expressions)))) rfl
    (fun _ _ => rfl) fun _ ⟨_, args⟩ => by cases args <;> rfl) fun h => ⟨_, h⟩

theorem yields_base : Yields source P base .base :=
  Frames.yields (.located (.seq parts_ident (.optional (.between (.list expressions)))) rfl
    (fun _ _ => rfl) fun _ ⟨_, args⟩ => by cases args <;> rfl) fun h => ⟨_, h⟩

omit expressions

theorem parts_functionName : Parts source P functionName fun n => n.ident?.toList.map .ident := by
  refine .orElse (.fmap (.right (.option parts_ident)) fun name => ?_) (.fmap .silent fun _ => rfl)
  cases name <;> rfl

theorem parts_separatedTrailing {r : Phrase α} {s : Phrase β} {x : α → Construct}
    (parts : Parts source P r fun a => [x a]) :
    Parts source P (Rule.separatedTrailing r s) fun as => as.map x := by
  refine .fmap (.optional (.left (.separated1 parts))) fun as => ?_
  cases as with
  | none => rfl
  | some as => simp [List.map_eq_flatMap]

end Heads

include types expressions statements

theorem frames_function : Frames source P function .member := by
  have items : Parts source P headItem (Sum.elim (fun _ => []) fun m => [.invocation m]) :=
    .orElse (.fmap .silent fun _ => rfl) (.fmap (yields_invocation expressions).parts fun _ => rfl)
  have body : Parts source P ((some <$> block) <|> ((fun _ => none) <$> mark .semicolon))
      (fun b => b.toList.map .block) :=
    .orElse (.fmap (yields_block statements).parts fun _ => rfl) (.fmap .silent fun _ => rfl)
  have parameters := parts_parameters types
  refine .located (.seq parts_functionName (.seq parameters (.seq (.many items)
    (.seq (.optional (.right parameters)) body)))) rfl (fun _ _ => rfl) fun s p => ?_
  obtain ⟨name, params, items, returns, body⟩ := p
  have modifiers : (items.filterMap Sum.getRight?).map Construct.invocation =
      items.flatMap (Sum.elim (fun _ => []) fun m => [.invocation m]) := by
    induction items with
    | nil => rfl
    | cons i items ih => cases i <;> simp [List.filterMap_cons, ih]
  show FunctionDef.parts _ = _
  simp only [FunctionDef.parts, modifiers]
  cases returns <;> rfl

omit statements

theorem frames_stateVariable : Frames source P stateVariable .member :=
  .located (.seq (.left types) (.seq parts_ident (.left (parts_initializer expressions)))) rfl
    (fun _ _ => rfl) fun _ _ => rfl

omit expressions

theorem frames_event : Frames source P event .member :=
  .located (.seq (.right parts_ident) (.left (.left (parts_parameters types)))) rfl (fun _ _ => rfl)
    fun _ _ => rfl

theorem frames_struct : Frames source P struct .member :=
  .located (.seq (.right parts_ident) (.between (.each (yields_field types).parts))) rfl
    (fun _ _ => rfl) fun _ _ => rfl

omit types in
theorem frames_enum : Frames source P enum .member :=
  .located (.seq (.right parts_ident) (.between (parts_separatedTrailing parts_ident))) rfl
    (fun _ _ => rfl) fun _ _ => rfl

theorem frames_directive : Frames source P directive .member := by
  have target : Parts source P (((fun _ => none) <$> mark .star) <|> (some <$> typeName))
      fun t => t.toList.map .typeName :=
    .orElse (.fmap .silent fun _ => rfl) (.fmap types fun _ => rfl)
  exact .located (.left (.seq (.left (.right parts_path)) target)) rfl (fun _ _ => rfl) fun _ _ => rfl

include statements

theorem frames_modifier : Frames source P modifier .member := by
  have parameters := parts_parameters types
  refine .located (.seq (.right parts_ident) (.seq (.optional parameters) (yields_block statements).parts))
    rfl (fun _ _ => rfl) fun _ ⟨_, params, _⟩ => ?_
  cases params <;> rfl

omit types statements in
/-- What is read has no numbers yet. -/
theorem unnumbered_member {m : Member Unit} (h : Phrase.Reads source member o m ts rest) :
    m.unnumbered = m := by
  repeat
    rcases Rule.reads_orElse.1 h with h | ⟨-, h⟩
    · obtain ⟨_, rfl, -⟩ := Rule.reads_located.1 h
      rfl
  obtain ⟨_, rfl, -⟩ := Rule.reads_located.1 h
  rfl

include expressions

theorem yields_member : Yields source P member .member := by
  refine Frames.yields ?_ fun h => ⟨_, (unnumbered_member h).symm ▸ h⟩
  refine .orElse (frames_function types expressions statements) ?_
  refine .orElse (frames_modifier types statements) ?_
  refine .orElse (frames_event types) ?_
  refine .orElse (frames_struct types) ?_
  refine .orElse frames_enum ?_
  refine .orElse (frames_directive types) ?_
  exact frames_stateVariable types expressions

theorem frames_contract : Frames source P contract .node := by
  have bases : Parts source P
      ((fun p => p.1 :: p.2) <$> (keyword .is *> Rule.separated1 base (mark .comma)))
      fun bs => bs.map .base :=
    .fmap (.right (.separated1 (yields_base expressions).parts)) fun _ => by simp [List.map_eq_flatMap]
  have members := Lays.each (yields_member types expressions statements).parts
  refine .located (.seq .silent (.seq parts_ident (.seq (.optional bases) (.between members)))) rfl
    (fun _ _ => rfl) fun _ ⟨_, _, bases, _⟩ => ?_
  cases bases <;> rfl

omit types expressions statements in
theorem unnumbered_members {ms : List (Member Unit)}
    (h : Phrase.Reads source (.many member) o ms ts rest) : ms.map Member.unnumbered = ms := by
  induction ms generalizing o ts with
  | nil => rfl
  | cons m ms ih =>
      obtain ⟨us, vs, rfl, reading, others⟩ := h
      rw [List.map_cons, unnumbered_member reading, ih others]

omit types expressions statements in
theorem unnumbered_node {n : Node Unit}
    (h : Phrase.Reads source (pragma <|> inclusion <|> contract) o n ts rest) : n.unnumbered = n := by
  rcases Rule.reads_orElse.1 h with h | ⟨-, h⟩
  · obtain ⟨_, rfl, -⟩ := Rule.reads_located.1 h
    rfl
  rcases Rule.reads_orElse.1 h with h | ⟨-, h⟩
  · obtain ⟨_, rfl, -⟩ := Rule.reads_located.1 h
    rfl
  · obtain ⟨_, rfl, _, _, -, -, _, _, -, -, _, _, -, -, body⟩ := Rule.reads_located.1 h
    obtain ⟨_, _, _, -, -, -, members⟩ := Rule.reads_between.1 body
    simp only [Node.unnumbered, unnumbered_members members]

theorem yields_node : Yields source P (pragma <|> inclusion <|> contract) .node := by
  refine Frames.yields ?_ fun h => ⟨_, (unnumbered_node h).symm ▸ h⟩
  refine .orElse (.located .silent rfl (fun _ _ => rfl) fun _ _ => rfl) ?_
  refine .orElse (.located .silent rfl (fun _ _ => rfl) fun _ _ => rfl) ?_
  exact frames_contract types expressions statements

end Definitions

section Files

/-- The node that a nonterminal yields. -/
def construct : (n : Symbol) → n.Value → Construct
  | .typeName, t => .typeName t
  | .operand, e | .expression, e => .expr e
  | .statement, s => .stmt s

/-- What is known of everything that the nonterminals read, with the places of all nodes. -/
def Framed (source : Source) : Property := fun n o a ts rest =>
  Sound source n o a ts rest ∧ (construct n a).Occupies source o ts

theorem framed_rules (n : Symbol) (o : Nat) (a : n.Value) (ts rest : List Spaced)
    (holds : Holds source o (ts ++ rest))
    (h : (Rule.meaning (Symbol.known source (Framed source)) (rules n)).reads o a ts rest) :
    Framed source n o a ts rest := by
  have types : Yields source (Framed source) typeName .typeName := ⟨fun h => h.2.2⟩
  have expressions : Yields source (Framed source) expression .expr := ⟨fun h => h.2.2⟩
  have operands : Yields source (Framed source) operand .expr := ⟨fun h => h.2.2⟩
  have statements : Yields source (Framed source) statement .stmt := ⟨fun h => h.2.2⟩
  have written : ∀ {o t ts rest},
      (Symbol.known source (Framed source) .typeName).reads o t ts rest →
        t.Written ts ∧ t.Ends rest := fun h => h.2.1
  have located : ∀ {o e ts rest},
      (Symbol.known source (Framed source) .expression).reads o e ts rest →
        Expr.Located o e ts ∧ Unassigned source (o + width ts) rest := fun h => h.2.1
  have tight : ∀ {o e ts rest}, (Symbol.known source (Framed source) .operand).reads o e ts rest →
      Expr.Located o e ts ∧ Expr.level e ≤ 1 := fun h => h.2.1
  have sound : ∀ {n o a ts rest}, (Symbol.known source (Framed source) n).reads o a ts rest →
      (Symbol.known source (Sound source) n).reads o a ts rest := fun h => ⟨h.1, h.2.1⟩
  refine ⟨sound_rules n o a ts rest holds ((Rule.meaning_mono sound id _).1 h), ?_⟩
  cases n with
  | typeName => exact (yields_typeNameRule types.parts fun h => (written h).1).occupies h
  | operand =>
      exact (yields_operandRule types.parts expressions.parts operands written located tight).occupies h
  | expression => exact occupies_expression expressions.parts operands located tight holds h
  | statement =>
      exact (yields_statementRule types.parts expressions.parts statements.parts).occupies h

/-- The nodes of a file stand among its tokens. -/
theorem laid_nodes {ts : List Spaced} {ns : List (Node Unit)} (holds : Holds source 0 ts)
    (h : split source nodes (lexemes 0 ts) = some ⟨ns, lexemes 0 ts, []⟩) :
    Laid (Construct.Occupies source) 0 (ns.map .node) ts := by
  have types : Yields source (Framed source) typeName .typeName := ⟨fun h => h.2.2⟩
  have expressions : Yields source (Framed source) expression .expr := ⟨fun h => h.2.2⟩
  have statements : Yields source (Framed source) statement .stmt := ⟨fun h => h.2.2⟩
  have each := yields_node types.parts expressions.parts statements.parts
  exact (Lays.each each.parts).laid (known_of_split framed_rules (r := nodes) (by rfl) holds h)

end Files

end SafeSubset.Grammar.Phrase

namespace SafeSubset

open Token (Spaced Holds lexemes)

/-- The nodes of a file that has been read stand among its tokens. -/
theorem Source.occupies_of_parse {source : Source} {u : SourceUnit Unit} {ts : List Spaced}
    (read : source.parse.unit = .ok u) (found : (Token.scan source).lexemes = lexemes 0 ts)
    (holds : Holds source 0 ts) : Laid (Construct.Occupies source) 0 (u.nodes.map .node) ts := by
  obtain ⟨ns, rfl, split⟩ := split_of_parse read
  rw [found] at split
  have alike : List.Forall₂ Construct.Alike (ns.map .node) ((numberNodes 0 ns).map .node) := by
    rw [List.forall₂_map_left_iff, List.forall₂_map_right_iff]
    have related : List.Forall₂ Eq (ns.map Node.unnumbered)
        ((numberNodes 0 ns).map Node.unnumbered) := by
      rw [map_unnumbered_numberNodes]
      exact List.forall₂_refl _
    rw [List.forall₂_map_left_iff, List.forall₂_map_right_iff] at related
    exact related.imp fun _ _ same => .node same
  exact (Grammar.Phrase.laid_nodes holds split).transfer
    (fun _ _ _ _ alike part => part.alike alike) alike

end SafeSubset
