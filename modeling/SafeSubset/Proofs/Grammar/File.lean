import SafeSubset.Proofs.Grammar.Placement
import SafeSubset.Proofs.Token.Cut
import SafeSubset.Proofs.Typing.Declarations
import SafeSubset.Proofs.Typing.Forget
import SafeSubset.Review

/-! Reading a whole file. Its tokens are those of its contracts in their order,
so every expression of an accepted file stands where its span says. -/
namespace SafeSubset

open Token (Kind Keyword Mark Piece PieceKind Lexeme Spaced Holds lexemes width extent core)

/-- The contract that a node defines, if it defines one. -/
def Node.definition {α : Type} : Node α → List (Contract α)
  | .contract c => [c]
  | .pragma _ | .inclusion _ => []

namespace Grammar.Phrase

variable {source : Source}

/-- What is known of everything that the nonterminals read. -/
def Sound (source : Source) : Property
  | .typeName, _, t, ts, rest => TypeName.Written t ts ∧ TypeName.Ends t rest
  | .operand, o, e, ts, _ => Expr.Located o e ts ∧ Expr.level e ≤ 1
  | .expression, o, e, ts, rest => Expr.Located o e ts ∧ Unassigned source (o + width ts) rest
  | .statement, o, s, ts, _ => Laid Expr.Located o (Stmt.roots s) ts

theorem not_unassigned {P : Property} {o : Nat} {p : AssignOp × Expr Unit} {ts rest : List Spaced}
    (holds : Holds source o (ts ++ rest))
    (h : (Rule.meaning (Symbol.known source P) (.seq assignOperator expression)).reads o p ts rest) :
    ¬ Unassigned source o (ts ++ rest) := by
  intro unassigned
  have calls : ∀ n, (Symbol.known source P n).Decides source (Symbol.split source n) :=
    fun n => ⟨fun _ h => h.1, fun _ h => h⟩
  have found := (Rule.decides (Symbol.split_advance source) (by rfl) calls).reads holds h
  have missing := (decides (by rfl)).fails holds unassigned
  exact Option.some_ne_none _ (found.symm.trans missing)

theorem unassigned {P : Property} {o : Nat} {xs : List Spaced}
    (h : (Rule.meaning (Symbol.known source P) (.seq assignOperator expression)).fails o xs) :
    Unassigned source o xs := by
  rcases Rule.fails_seq.1 h with h | ⟨op, us, vs, rfl, reading, failure⟩
  · exact .inl (Rule.fails_oneOf.2 (Rule.fails_oneOf.1 h))
  · exact .inr ⟨op, us, vs, rfl, Rule.reads_oneOf.2 (Rule.reads_oneOf.1 reading), failure⟩

theorem known_ne_nil {P : Property} {n : Symbol} {o : Nat} {a : n.Value} {ts rest : List Spaced}
    (h : (Symbol.known source P n).reads o a ts rest) : ts ≠ [] := by
  rintro rfl
  exact (Symbol.split_advance source _ _ _ h.1).2 rfl

theorem lays_expression :
    Lays (Symbol.known source (Sound source)) Expr.Located expression fun e => [e] where
  laid := by
    rintro o e ts rest ⟨-, located, -⟩
    exact .single located

theorem lays_statement :
    Lays (Symbol.known source (Sound source)) Expr.Located statement Stmt.roots where
  laid := by
    rintro o s ts rest ⟨-, laid⟩
    exact laid

theorem sound_rules (n : Symbol) (o : Nat) (a : n.Value) (ts rest : List Spaced)
    (holds : Holds source o (ts ++ rest))
    (h : (Rule.meaning (Symbol.known source (Sound source)) (rules n)).reads o a ts rest) :
    Sound source n o a ts rest := by
  have types : ∀ {o t ts rest}, (Symbol.known source (Sound source) .typeName).reads o t ts rest →
      t.Written ts ∧ t.Ends rest := fun h => h.2
  have expressions : ∀ {o e ts rest},
      (Symbol.known source (Sound source) .expression).reads o e ts rest →
        Expr.Located o e ts ∧ Unassigned source (o + width ts) rest := fun h => h.2
  have operands : ∀ {o e ts rest},
      (Symbol.known source (Sound source) .operand).reads o e ts rest →
        Expr.Located o e ts ∧ Expr.level e ≤ 1 := fun h => h.2
  cases n with
  | typeName => exact sound_typeName (fun h => (types h).1) h
  | operand => exact sound_operand types (fun h => (expressions h).1) operands h
  | expression => exact sound_expression operands expressions not_unassigned unassigned holds h
  | statement => exact (lays_statementRule lays_expression lays_statement).laid h

theorem lays_nodes :
    Lays (Symbol.known source (Sound source)) Contract.Placed nodes fun ns =>
      ns.flatMap Node.definition where
  laid := by
    refine (Lays.many (f := Node.definition) (.orElse (.located .silent fun _ _ => rfl)
      (.orElse (.located .silent fun _ _ => rfl) ⟨fun reading => ?_⟩))).laid
    obtain ⟨c, rfl, placed⟩ := placed_contract known_ne_nil lays_expression lays_statement reading
    exact .single placed

/-- Whatever a nonterminal reads is sound. -/
theorem sound_of_reads {n : Symbol} {o : Nat} {a : n.Value} {ts rest : List Spaced}
    (holds : Holds source o (ts ++ rest)) (h : (n.meaning source).reads o a ts rest) :
    Sound source n o a ts rest :=
  Symbol.known_of_reads sound_rules holds h

/-- The contracts of a file stand among its tokens. -/
theorem placed_nodes {ts : List Spaced} {ns : List (Node Unit)} (holds : Holds source 0 ts)
    (h : split source nodes (lexemes 0 ts) = some ⟨ns, lexemes 0 ts, []⟩) :
    Laid Contract.Placed 0 (ns.flatMap Node.definition) ts :=
  lays_nodes.laid (known_of_split sound_rules (r := nodes) (by rfl) holds h)

end Grammar.Phrase

variable {α : Type}

theorem laid_alike {β : Type} {o : Nat} {cs : List (Contract α)} {ds : List (Contract β)}
    {ts : List Spaced} (alike : List.Forall₂ Contract.Alike cs ds)
    (laid : Laid Contract.Placed o cs ts) : Laid Contract.Placed o ds ts := by
  refine Laid.transfer ?_ alike laid
  exact fun _ _ _ _ alike placed => placed.congr alike

theorem SourceUnit.contracts_eq (u : SourceUnit α) :
    u.contracts = u.nodes.flatMap Node.definition := by
  rw [contracts]
  induction u.nodes with
  | nil => rfl
  | cons n ns ih => cases n <;> simpa [Node.definition] using ih

theorem alike_numberMembers (id : Nat) (ms : List (Member α)) :
    (numberMembers id ms).2.map Member.span = ms.map Member.span ∧
      (numberMembers id ms).2.flatMap Member.roots = ms.flatMap Member.roots := by
  induction ms generalizing id with
  | nil => exact ⟨rfl, rfl⟩
  | cons m ms ih =>
      cases m with
      | function f =>
          obtain ⟨spans, roots⟩ := ih (id + 1)
          exact ⟨by simp [numberMembers, spans, Member.span],
            by simp [numberMembers, roots, Member.roots, FunctionDef.roots]⟩
      | state m | modifier m | directive m | event m | struct m | enum m =>
          obtain ⟨spans, roots⟩ := ih id
          exact ⟨by simp [numberMembers, spans], by simp [numberMembers, roots]⟩

theorem Contract.entry_eq (c : Contract α) :
    c.entry = ((c.members.map Member.span).head?.map Span.start).getD (c.span.stop - 1) := by
  unfold entry
  cases c.members <;> rfl

/-- What a check holds of is there. -/
theorem exists_of_any {ε β : Type} {x : Except ε β} {p : β → Bool} (h : x.toOption.any p = true) :
    ∃ b, x = .ok b ∧ p b = true := by
  cases x with
  | error => cases h
  | ok b => exact ⟨b, rfl, h⟩

/-- An accepted file is read without a fault and then typed. -/
theorem Source.front_annotate {source : Source} {u : SourceUnit Ty} (accepted : source.front = .ok u) :
    ∃ v, source.parse.unit = .ok v ∧ source.parse.faults = [] ∧ u = v.annotate := by
  simp only [front] at accepted
  split at accepted
  · next v read faults => exact ⟨v, read, faults, (Except.ok.inj accepted).symm⟩
  · cases accepted

/-- Numbers change nothing about where a contract stands. -/
theorem alike_numbered (id : Nat) (c : Contract α) :
    c.Alike { c with id, members := (numberMembers (id + 1) c.members).2 } := by
  obtain ⟨spans, roots⟩ := alike_numberMembers (id + 1) c.members
  refine ⟨rfl, by simp [Contract.entry_eq, spans], fun none => ?_, rfl, by rw [roots]⟩
  rw [none, List.map_nil, List.map_eq_nil_iff] at spans
  rw [none]
  exact spans

theorem alike_numberNodes (id : Nat) (ns : List (Node α)) :
    List.Forall₂ (Contract.Alike) (ns.flatMap Node.definition)
      ((numberNodes id ns).flatMap Node.definition) := by
  induction ns generalizing id with
  | nil => exact .nil
  | cons n ns ih =>
      cases n with
      | pragma s | inclusion s => exact ih id
      | contract c => exact .cons (alike_numbered id c) (ih _)

theorem alike_annotate (u : SourceUnit α) :
    List.Forall₂ (Contract.Alike) u.contracts u.annotate.contracts := by
  rw [Typing.contracts_annotate, List.forall₂_map_right_iff, List.forall₂_same]
  exact fun c _ => Contract.alike_of_mapRoots (Typing.mapRoots_forget_contractDef _ c).symm

/-- A file that has been read is the nodes that its tokens are read as, with numbers. -/
theorem Source.split_of_parse {source : Source} {u : SourceUnit Unit}
    (read : source.parse.unit = .ok u) :
    ∃ ns, u = ⟨numberNodes 0 ns, ⟨0, Source.byteLength source⟩⟩ ∧
      Grammar.Phrase.split source Grammar.Phrase.nodes (Token.scan source).lexemes =
        some ⟨ns, (Token.scan source).lexemes, []⟩ := by
  simp only [Source.parse] at read
  cases parsed : Grammar.Phrase.nodes.readAll (.start source (Token.scan source).lexemes) with
  | error f => simp [parsed, Except.map] at read
  | ok ns =>
      simp only [parsed, Except.map, Except.ok.injEq] at read
      exact ⟨ns, read.symm, (Grammar.Phrase.readAll_iff (by rfl)).1 parsed⟩

/-- The contracts of a file that has been read stand among its tokens. -/
theorem Source.laid_of_parse {source : Source} {u : SourceUnit Unit} {ts : List Spaced}
    (read : source.parse.unit = .ok u) (found : (Token.scan source).lexemes = lexemes 0 ts)
    (holds : Holds source 0 ts) : Laid Contract.Placed 0 u.contracts ts := by
  obtain ⟨ns, rfl, split⟩ := split_of_parse read
  rw [found] at split
  rw [SourceUnit.contracts_eq]
  exact laid_alike (alike_numberNodes 0 ns) (Grammar.Phrase.placed_nodes holds split)

/-- The contracts of an accepted file stand among its tokens. -/
theorem Source.front_placed {source : Source} {u : SourceUnit Ty} (h : source.front = .ok u) :
    ∃ (ts : List Spaced) (tail : List Source),
      Token.pieces source = ts.flatMap Spaced.pieces ++ tail.map (⟨.trivia, ·⟩) ∧
        Holds source 0 ts ∧ Laid Contract.Placed 0 u.contracts ts := by
  obtain ⟨v, read, faults, rfl⟩ := front_annotate h
  obtain ⟨ts, tail, cut, found, holds⟩ := Token.scan_faultless faults
  exact ⟨ts, tail, cut, holds, laid_alike (alike_annotate v) (laid_of_parse read found holds)⟩

end SafeSubset
