import SafeSubset.Proofs.Grammar.Blind
import SafeSubset.Proofs.Grammar.File
import SafeSubset.Proofs.Syntax.Stripped

/-! Reading a text with other trivia. Each phrase of the language reads the same off
tokens and their twins once the values are stripped of their places, so two files with the
same words are both read, to the same unit, or neither is. -/
namespace SafeSubset

namespace Grammar

open Token (Kind Lexeme)

/-- What a nonterminal yields, stripped of its places. -/
def Symbol.stripped : (n : Symbol) → n.Value → n.Value
  | .typeName => TypeName.bare
  | .expression | .operand => Expr.stripped
  | .statement => Stmt.stripped

def Phrase.Suffix.stripped : Phrase.Suffix → Phrase.Suffix
  | call args names => call (args.map Expr.stripped) (names.map Ident.bare)
  | member name => member name.bare
  | index i => index (i.map Expr.stripped)
  | step op => step op

namespace Phrase

variable {α : Type} {call : (n : Symbol) → Meaning n.Value}

abbrev Blind (call : (n : Symbol) → Meaning n.Value) (r : Phrase α) (f : α → α) : Prop :=
  Rule.Blind call r f

section Names

theorem blind_ident : Blind call ident Ident.bare := .fmap .token fun _ => rfl

theorem blind_commas {r : Phrase α} {f : α → α} (blind : Blind call r f) :
    Blind call (commas r) (List.map f) :=
  .separated blind .token

theorem bare_ofComponents (first : Ident) (others : List Ident) :
    (Path.ofComponents first others).bare = .ofComponents first.bare (others.map Ident.bare) := by
  induction others generalizing first with
  | nil => rfl
  | cons next others ih =>
      have tail := ih next
      simp only [Path.ofComponents, Path.bare, List.map_cons] at tail ⊢
      rw [← tail]

theorem blind_path : Blind call path Path.bare :=
  .fmap (.separated1 blind_ident .token) fun p => bare_ofComponents p.1 p.2

end Names

section Values

theorem stripped_index (s : Span) (base : Expr Unit) (k : Option (Expr Unit)) :
    (Expr.index (untyped s) base k).stripped =
      .index (untyped (.point 0)) base.stripped (k.map Expr.stripped) := by
  cases k <;> rfl

theorem stripped_apply (s : Span) (e : Expr Unit) (x : Suffix) :
    (x.apply s e).stripped = x.stripped.apply (.point 0) e.stripped := by
  cases x with
  | call args names => simp [Suffix.apply, Suffix.stripped, Expr.stripped, Expr.strippedAll_eq]; rfl
  | member name => rfl
  | index i => exact stripped_index s e i
  | step op => rfl

end Values

variable (calls : ∀ n, (call n).Blind n.stripped)
include calls

section Types

theorem blind_typeName : Blind call typeName TypeName.bare := calls .typeName

theorem blind_typeNameRule : Blind call typeNameRule TypeName.bare := by
  have mapping : Blind call mappingType TypeName.bare :=
    .located (.right .token (.between (.seq (.left (blind_typeName calls) .token) (blind_typeName calls))))
      fun _ _ => rfl
  have elementary : Blind call elementaryType TypeName.bare :=
    .located (.left .word (.optional .token)) fun _ _ => rfl
  have user : Blind call userType TypeName.bare := .located blind_path fun _ _ => rfl
  have length : Blind call arrayLength (Option.map id) :=
    .between (.optional (.fmap .token fun _ => rfl))
  refine .chain (.orElse mapping (.orElse elementary user)) length fun _ _ b => ?_
  rw [Option.map_id]
  rfl

end Types

section Expressions

theorem blind_expression : Blind call expression Expr.stripped := calls .expression

theorem blind_operand : Blind call operand Expr.stripped := calls .operand

theorem blind_atom : Blind call atom Expr.stripped := by
  have number : Blind call number Expr.stripped :=
    .located (.verbatim (.seq .token (.optional .word))) fun _ _ => rfl
  have string : Blind call string Expr.stripped := .located .token fun _ _ => rfl
  have boolean : Blind call boolean Expr.stripped := .located .oneOf fun _ _ => rfl
  have creation : Blind call creation Expr.stripped :=
    .located (.right .token (blind_typeName calls)) fun _ _ => rfl
  have payable : Blind call payableName Expr.stripped := .located .token fun _ _ => rfl
  have elementary : Blind call elementaryName Expr.stripped := .located .word fun _ _ => rfl
  have name : Blind call name Expr.stripped := .fmap blind_ident fun _ => rfl
  have tuple : Blind call tuple Expr.stripped :=
    .located (.between (blind_commas (blind_expression calls))) fun _ es =>
      congrArg _ (Expr.strippedAll_eq es)
  exact .orElse number <| .orElse string <| .orElse boolean <| .orElse creation <|
    .orElse payable <| .orElse elementary <| .orElse name tuple

theorem blind_suffixed : Blind call suffixed Expr.stripped := by
  have named : Blind call namedArguments (List.map (Prod.map Ident.bare Expr.stripped)) :=
    .between (blind_commas (.seq (.left blind_ident .token) (blind_expression calls)))
  have args : Blind call callSuffix Suffix.stripped :=
    .between (.orElse (.fmap named fun ps => by simp [Suffix.stripped])
      (.fmap (blind_commas (blind_expression calls)) fun _ => rfl))
  have member : Blind call (Suffix.member <$> (mark .dot *> ident)) Suffix.stripped :=
    .fmap (.right .token blind_ident) fun _ => rfl
  have index : Blind call (Suffix.index <$> brackets (.optional expression)) Suffix.stripped :=
    .fmap (.between (.optional (blind_expression calls))) fun _ => rfl
  exact .chain (blind_atom calls) (.orElse args (.orElse member (.orElse index (.same .oneOf))))
    stripped_apply

theorem blind_operandRule : Blind call operandRule Expr.stripped := by
  have operator : Blind call unaryOperator id := .orElse .oneOf (.fmap .token fun _ => rfl)
  exact .orElse (.located (.seq operator (blind_operand calls)) fun _ _ => rfl) (blind_suffixed calls)

theorem blind_disjunction : Blind call disjunction Expr.stripped := by
  have leveled : ∀ (levels : List Level) (r : Phrase (Expr Unit)), Blind call r Expr.stripped →
      Blind call (levels.foldl leveled r) Expr.stripped := by
    intro levels
    induction levels with
    | nil => exact fun _ blind => blind
    | cons level levels ih =>
        intro r blind
        have operation : Blind call (.seq (markOf level.1 level.2) r) (Prod.map id Expr.stripped) :=
          .seq .oneOf blind
        exact ih _ (.chain blind operation fun _ _ _ => rfl)
  exact leveled levels operand (blind_operand calls)

theorem blind_expressionRule : Blind call expressionRule Expr.stripped := by
  have conditional : Blind call conditional Expr.stripped := by
    refine .located (.seq (blind_disjunction calls) (.optional (.seq (.right .token (blind_expression calls))
      (.right .token (blind_expression calls))))) ?_
    rintro s ⟨c, _ | ⟨t, f⟩⟩ <;> rfl
  have operator : Blind call assignOperator id := .oneOf
  refine .located (.seq conditional (.optional (.seq operator (blind_expression calls)))) ?_
  rintro s ⟨l, _ | ⟨op, r⟩⟩ <;> rfl

end Expressions

section Statements

theorem blind_statement : Blind call statement Stmt.stripped := calls .statement

theorem blind_initializer : Blind call initializer (Option.map Expr.stripped) :=
  .optional (.right .token (blind_expression calls))

theorem blind_localVariable : Blind call localVariable Variable.stripped := by
  have location : Blind call dataLocation id := .oneOf
  exact .located (.seq (.left (blind_typeName calls) (.optional location))
    (.seq blind_ident (blind_initializer calls))) fun _ _ => rfl

theorem blind_block : Blind call block Block.stripped :=
  .located (.between (.many (blind_statement calls))) fun _ b =>
    congrArg (Block.mk · (.point 0)) (Stmt.strippedAll_eq b)

omit calls in
theorem blind_jumpStatement : Blind call jumpStatement Stmt.stripped := by
  refine .located_of (.left .oneOf .token) fun {o jump ts rest} h s => ?_
  obtain ⟨us, t, rfl, -, reading⟩ := Rule.reads_before.1 h
  obtain ⟨u, rfl, mem⟩ := Rule.mem_of_reads_oneOf reading
  simp only [List.map, List.mem_cons, Prod.mk.injEq, List.not_mem_nil, or_false] at mem
  rcases mem with ⟨-, rfl⟩ | ⟨-, rfl⟩ | ⟨-, rfl⟩ <;> rfl

theorem blind_ifStatement : Blind call ifStatement Stmt.stripped := by
  refine .located (.seq (.right .token (.between (blind_expression calls)))
    (.seq (blind_statement calls) (.optional (.right .token (blind_statement calls))))) ?_
  rintro s ⟨c, t, _ | f⟩ <;> rfl

theorem blind_forStatement : Blind call forStatement Stmt.stripped := by
  have initial : Blind call forInitial Stmt.stripped :=
    .orElse (.located (blind_localVariable calls) fun _ _ => rfl)
      (.located (blind_expression calls) fun _ _ => rfl)
  refine .located (.seq (.right .token (.between (.seq (.left (.optional initial) .token)
    (.seq (.left (.optional (blind_expression calls)) .token) (.optional (blind_expression calls))))))
    (blind_statement calls)) ?_
  rintro s ⟨⟨_ | i, c, step⟩, b⟩ <;> rfl

theorem blind_statementRule : Blind call statementRule Stmt.stripped := by
  have condition : Blind call (parens expression) Expr.stripped := .between (blind_expression calls)
  have while_ : Blind call whileStatement Stmt.stripped :=
    .located (.seq (.right .token condition) (blind_statement calls)) fun _ _ => rfl
  have do_ : Blind call doStatement Stmt.stripped :=
    .located (.seq (.right .token (blind_statement calls)) (.left (.right .token condition) .token))
      fun _ _ => rfl
  have return_ : Blind call returnStatement Stmt.stripped :=
    .located (.left (.right .token (.optional (blind_expression calls))) .token) fun _ _ => rfl
  have emit_ : Blind call emitStatement Stmt.stripped :=
    .located (.left (.right .token (blind_expression calls)) .token) fun _ _ => rfl
  have declaration : Blind call declarationStatement Stmt.stripped :=
    .located (.left (blind_localVariable calls) .token) fun _ _ => rfl
  have expression_ : Blind call expressionStatement Stmt.stripped :=
    .located (.left (blind_expression calls) .token) fun _ _ => rfl
  exact .orElse (.fmap (blind_block calls) fun _ => rfl) <| .orElse (blind_ifStatement calls) <|
    .orElse while_ <| .orElse do_ <| .orElse (blind_forStatement calls) <| .orElse return_ <|
    .orElse emit_ <| .orElse blind_jumpStatement <| .orElse declaration expression_

theorem blind_rules (n : Symbol) : Blind call (rules n) n.stripped := by
  cases n with
  | typeName => exact blind_typeNameRule calls
  | expression => exact blind_expressionRule calls
  | operand => exact blind_operandRule calls
  | statement => exact blind_statementRule calls

end Statements

section Definitions

theorem blind_parameters : Blind call parameters (List.map Parameter.stripped) := by
  have location : Blind call
      (keywordOf (.indexed, ()) [(.memory, ()), (.storage, ()), (.calldata, ())]) id := .oneOf
  have parameter : Blind call parameter Parameter.stripped :=
    .located (.seq (.left (blind_typeName calls) (.many location)) (.optional blind_ident)) fun _ _ => rfl
  exact .between (blind_commas parameter)

theorem blind_arguments : Blind call arguments (List.map Expr.stripped) :=
  .between (blind_commas (blind_expression calls))

theorem blind_headItem : Blind call headItem (Sum.map id Invocation.stripped) := by
  have invocation : Blind call invocation Invocation.stripped := by
    refine .located (.seq blind_ident (.optional (blind_arguments calls))) ?_
    rintro s ⟨n, _ | args⟩ <;> rfl
  have word : Blind call attributeWord id := .oneOf
  exact .orElse (.fmap word fun _ => rfl) (.fmap invocation fun _ => rfl)

omit calls in
theorem blind_functionName : Blind call functionName FunctionName.stripped :=
  .orElse (.fmap (.right .token (.optional blind_ident)) fun name => by cases name <;> rfl)
    (.fmap .token fun _ => rfl)

theorem blind_function : Blind call function Member.stripped := by
  have returns : Blind call (.optional (keyword .returns *> parameters))
      (Option.map (List.map Parameter.stripped)) := .optional (.right .token (blind_parameters calls))
  have body : Blind call ((some <$> block) <|> ((fun _ => none) <$> mark .semicolon))
      (Option.map Block.stripped) :=
    .orElse (.fmap (blind_block calls) fun _ => rfl) (.fmap .token fun _ => rfl)
  refine .located (.seq blind_functionName (.seq (blind_parameters calls)
    (.seq (.many (blind_headItem calls)) (.seq returns body)))) ?_
  rintro s ⟨name, params, head, returned, body⟩
  simp only [Member.stripped, FunctionDef.stripped, Prod.map_apply, List.filterMap_map,
    List.map_filterMap]
  congr 2
  · cases returned <;> rfl
  · exact List.filterMap_congr fun item _ => by cases item <;> rfl
  · exact List.filterMap_congr fun item _ => by cases item <;> rfl

theorem blind_member : Blind call member Member.stripped := by
  have modifier : Blind call modifier Member.stripped := by
    refine .located (.seq (.right .token blind_ident)
      (.seq (.optional (blind_parameters calls)) (blind_block calls))) ?_
    rintro s ⟨n, _ | params, b⟩ <;> rfl
  have event : Blind call event Member.stripped :=
    .located (.seq (.right .token blind_ident)
      (.left (.left (blind_parameters calls) (.optional .token)) .token)) fun _ _ => rfl
  have field : Blind call field Field.stripped :=
    .located (.seq (blind_typeName calls) (.left blind_ident .token)) fun _ _ => rfl
  have struct : Blind call struct Member.stripped :=
    .located (.seq (.right .token blind_ident) (.between (.many field))) fun _ _ => rfl
  have enum : Blind call enum Member.stripped :=
    .located (.seq (.right .token blind_ident)
      (.between (.orEmpty (.left (.separated1 blind_ident .token) (.optional .token))))) fun _ _ => rfl
  have target : Blind call (((fun _ => none) <$> mark .star) <|> (some <$> typeName))
      (Option.map TypeName.bare) :=
    .orElse (.fmap .token fun _ => rfl) (.fmap (blind_typeName calls) fun _ => rfl)
  have directive : Blind call directive Member.stripped :=
    .located (.left (.seq (.left (.right .token blind_path) .token) target) .token) fun _ _ => rfl
  have words : Blind call
      (keywordOf (.public, ()) [(.private, ()), (.internal, ()), (.constant, ())]) id := .oneOf
  have state : Blind call stateVariable Member.stripped :=
    .located (.seq (.left (blind_typeName calls) (.many words))
      (.seq blind_ident (.left (blind_initializer calls) .token))) fun _ _ => rfl
  exact .orElse (blind_function calls) <| .orElse modifier <| .orElse event <| .orElse struct <|
    .orElse enum <| .orElse directive state

theorem blind_nodes : Blind call nodes (List.map Node.stripped) := by
  have untilSemicolon : Blind call untilSemicolon id :=
    .fmap (.left (.many .except) .token) fun _ => rfl
  have pragma : Blind call pragma Node.stripped :=
    .located (.right .token untilSemicolon) fun _ _ => rfl
  have inclusion : Blind call inclusion Node.stripped :=
    .located (.right .token untilSemicolon) fun _ _ => rfl
  have one : Blind call base Base.stripped :=
    .located (.seq blind_ident (.optional (blind_arguments calls))) fun _ _ => rfl
  have bases : Blind call
      ((fun p => p.1 :: p.2) <$> (keyword .is *> Rule.separated1 base (mark .comma))) (List.map Base.stripped) :=
    .fmap (.right .token (.separated1 one .token)) fun _ => rfl
  have contract : Blind call contract Node.stripped := by
    refine .located (.seq .oneOf (.seq blind_ident
      (.seq (.optional bases) (.between (.many (blind_member calls)))))) ?_
    rintro s ⟨kind, name, _ | bases, members⟩ <;> rfl
  exact .many (.orElse pragma (.orElse inclusion contract))

end Definitions

end Phrase
end Grammar

open Token (Faultless words)

/-- Of two texts without faults and with the same words, what the one is read as the other
is read as too. -/
theorem Source.parse_of_words {source source' : Source} (faultless : Faultless source)
    (faultless' : Faultless source') (same : words source = words source') {u : SourceUnit Unit}
    (read : source.parse.unit = .ok u) :
    ∃ u', source'.parse.unit = .ok u' ∧ u'.stripped = u.stripped := by
  obtain ⟨ts, ts', found, holds, found', holds', twins⟩ := Token.twins_of_words faultless faultless' same
  obtain ⟨ns, rfl, split⟩ := split_of_parse read
  rw [found] at split
  have blind : ∀ depth, Grammar.Phrase.Blind (Grammar.rules.meaning depth) Grammar.Phrase.nodes
      (List.map Node.stripped) := fun depth =>
    Grammar.Phrase.blind_nodes (Grammar.Rules.blind (fun _ => Grammar.Phrase.blind_rules) depth)
  obtain ⟨ns', split', alike⟩ := Grammar.Phrase.split_twins (by rfl) blind holds holds' twins split
  refine ⟨⟨numberNodes 0 ns', ⟨0, Source.byteLength source'⟩⟩, ?_, ?_⟩
  · have proper : Grammar.Phrase.nodes.proper = true := rfl
    simp only [parse, found', (Grammar.Phrase.readAll_iff proper).2 split', Except.map]
  · simp only [SourceUnit.stripped, ← numberNodes_stripped, alike]

end SafeSubset
