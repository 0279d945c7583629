import SafeSubset.Checked.Rewrite
import SafeSubset.Proofs.Grammar.Soundness

/-! Where the roots of a file stand. Whatever a phrase reads, the expressions in
it are laid out among its tokens in the order of the traversals. -/
namespace SafeSubset

open Token (Spaced width extent)

/-- Where the first member of a contract starts, or else its closing brace. -/
def Contract.entry {α : Type} (c : Contract α) : Nat :=
  match c.members with
  | m :: _ => m.span.start
  | [] => c.span.stop - 1

/-- The tokens of a contract. The arguments of its bases stand before its opening
brace, and its members behind. -/
structure Contract.Placed {α : Type} (o : Nat) (c : Contract α) (ts : List Spaced) : Prop where
  some : ts ≠ []
  span : c.span = extent o ts
  halves : ∃ us vs, ts = us ++ vs ∧ (∃ init a, us = init ++ [a] ∧ a.kind = .mark .openBrace) ∧
    Laid Expr.Located o (c.bases.flatMap Base.roots) us ∧
    Laid Expr.Located (o + width us) (c.members.flatMap Member.roots) vs ∧
    o + width us ≤ c.entry ∧ c.entry < c.span.stop ∧
    (c.members = [] ∧ vs.map Spaced.kind = [.mark .closeBrace] ∨
      c.entry = (extent (o + width us) vs).start)

namespace Grammar.Phrase

open Token (Kind Keyword Mark Lexeme Spaced Holds lexemes width extent core)

variable {call : (n : Symbol) → Meaning n.Value} {α β ε : Type}

/-- The parts that `f` finds in what a phrase reads are laid out among its
tokens. -/
structure Lays (call : (n : Symbol) → Meaning n.Value) (W : Nat → ε → List Spaced → Prop)
    (r : Phrase α) (f : α → List ε) : Prop where
  laid : ∀ {o a ts rest}, (Rule.meaning call r).reads o a ts rest → Laid W o (f a) ts

section Combinators

variable {W : Nat → ε → List Spaced → Prop} {r : Phrase α} {s : Phrase β} {f : α → List ε}
  {g : β → List ε}

theorem Lays.silent : Lays call W r fun _ => [] := ⟨fun _ => .nil _ _⟩

theorem Lays.fmap {h : α → β} (lays : Lays call W r f) (same : ∀ a, g (h a) = f a) :
    Lays call W (h <$> r) g where
  laid := by
    rintro o _ ts rest ⟨a, rfl, reading⟩
    rw [same]
    exact lays.laid reading

theorem Lays.located {build : Span → α → β} (lays : Lays call W r f)
    (same : ∀ s a, g (build s a) = f a) : Lays call W (Rule.located build r) g where
  laid := by
    intro o b ts rest h
    obtain ⟨a, rfl, reading⟩ := Rule.reads_located.1 h
    rw [same]
    exact lays.laid reading

theorem Lays.seq (first : Lays call W r f) (second : Lays call W s g) :
    Lays call W (.seq r s) fun p => f p.1 ++ g p.2 where
  laid := by
    rintro o ⟨a, b⟩ _ rest ⟨us, vs, rfl, reading, reading'⟩
    exact (first.laid reading).append (second.laid reading')

theorem Lays.right (lays : Lays call W s g) : Lays call W (r *> s) g :=
  .fmap (.seq .silent lays) fun _ => rfl

theorem Lays.left (lays : Lays call W r f) : Lays call W (r <* s) f :=
  .fmap (.seq lays .silent) fun _ => (List.append_nil _).symm

theorem Lays.between {k k' : Phrase Lexeme} (lays : Lays call W r f) : Lays call W (k *> r <* k') f :=
  lays.right.left

theorem Lays.orElse {s : Phrase α} (first : Lays call W r f) (second : Lays call W s f) :
    Lays call W (r <|> s) f where
  laid := by
    intro o a ts rest reading
    rcases Rule.reads_orElse.1 reading with h | ⟨-, h⟩
    · exact first.laid h
    · exact second.laid h

theorem Lays.optional (lays : Lays call W r f) :
    Lays call W (.optional r) fun a => (a.map f).getD [] where
  laid := by
    intro o a ts rest h
    rcases Rule.reads_optional.1 h with ⟨b, rfl, reading⟩ | ⟨rfl, rfl, -⟩
    · exact lays.laid reading
    · exact .nil _ _

theorem Lays.many (lays : Lays call W r f) : Lays call W (.many r) fun as => as.flatMap f where
  laid := by
    intro o as ts rest reading
    induction as generalizing o ts with
    | nil => exact .nil _ _
    | cons a as ih =>
        obtain ⟨us, vs, rfl, reading, others⟩ := reading
        exact (lays.laid reading).append (ih others)

theorem Lays.separated1 (lays : Lays call W r f) :
    Lays call W (Rule.separated1 r s) fun p => f p.1 ++ p.2.flatMap f :=
  lays.seq (.many lays.right)

theorem Lays.commas (lays : Lays call W r f) : Lays call W (commas r) fun as => as.flatMap f := by
  refine .fmap (.optional lays.separated1) fun a => ?_
  cases a <;> simp

end Combinators

section Statements

theorem rootsAll_eq (ss : List (Stmt α)) : Stmt.rootsAll ss = ss.flatMap Stmt.roots := by
  induction ss with
  | nil => rfl
  | cons s ss ih => simp [Stmt.rootsAll, ih]

theorem lays_jumpStatement : Lays call Expr.Located jumpStatement Stmt.roots where
  laid := by
    intro o _ ts rest h
    obtain ⟨jump, rfl, reading⟩ := Rule.reads_located.1 h
    obtain ⟨us, t, rfl, -, reading⟩ := Rule.reads_before.1 reading
    obtain ⟨u, rfl, mem⟩ := Rule.mem_of_reads_oneOf reading
    simp only [List.map, List.mem_cons, Prod.mk.injEq, List.not_mem_nil, or_false] at mem
    rcases mem with ⟨-, rfl⟩ | ⟨-, rfl⟩ | ⟨-, rfl⟩ <;> exact .nil _ _

variable (expressions : Lays call Expr.Located expression fun e => [e])
  (statements : Lays call Expr.Located statement Stmt.roots)

include expressions

theorem lays_expressions : Lays call Expr.Located (commas expression) id where
  laid reading := by simpa using (Lays.commas expressions).laid reading

theorem lays_optional : Lays call Expr.Located (.optional expression) Option.toList where
  laid {o a ts rest} reading := by
    have laid := (Lays.optional expressions).laid reading
    cases a <;> exact laid

theorem lays_initializer : Lays call Expr.Located initializer Option.toList where
  laid {o a ts rest} reading := by
    have laid := (Lays.optional (Lays.right expressions)).laid reading
    cases a <;> exact laid

theorem lays_localVariable : Lays call Expr.Located localVariable fun v => v.value.toList :=
  .located (.seq .silent (.seq .silent (lays_initializer expressions))) fun _ _ => by simp

theorem lays_forInitial : Lays call Expr.Located forInitial Stmt.roots :=
  .orElse (.located (lays_localVariable expressions) fun _ _ => by simp [Stmt.roots])
    (.located expressions fun _ _ => by simp [Stmt.roots])

theorem lays_arguments : Lays call Expr.Located arguments id := .between (lays_expressions expressions)

theorem lays_invocation : Lays call Expr.Located invocation Invocation.args :=
  .located (.seq .silent (.optional (lays_arguments expressions))) fun _ ⟨_, a⟩ => by
    cases a <;> simp

theorem lays_base : Lays call Expr.Located base Base.roots :=
  .located (.seq .silent (.optional (lays_arguments expressions))) fun _ ⟨_, a⟩ => by
    cases a <;> simp [Base.roots]

include statements

omit expressions in
theorem lays_block : Lays call Expr.Located block fun b => Stmt.rootsAll b.body :=
  .located (.between (.many statements)) fun _ b => rootsAll_eq b

theorem lays_ifStatement : Lays call Expr.Located ifStatement Stmt.roots :=
  .located (.seq (.right (.between expressions)) (.seq statements (.optional (.right statements))))
    fun _ ⟨_, _, e⟩ => by cases e <;> simp [Stmt.roots]

theorem lays_whileStatement : Lays call Expr.Located whileStatement Stmt.roots :=
  .located (.seq (.right (.between expressions)) statements) fun _ _ => by simp [Stmt.roots]

theorem lays_doStatement : Lays call Expr.Located doStatement Stmt.roots :=
  .located (.seq (.right statements) (.left (.right (.between expressions)))) fun _ _ => by
    simp [Stmt.roots]

theorem lays_forStatement : Lays call Expr.Located forStatement Stmt.roots := by
  have head := Lays.seq (.left (s := mark .semicolon) (.optional (lays_forInitial expressions)))
    (.seq (.left (s := mark .semicolon) (lays_optional expressions)) (lays_optional expressions))
  refine .located (.seq (.right (.between head)) statements) fun _ ⟨⟨i, _, _⟩, _⟩ => ?_
  cases i <;> simp [Stmt.roots]

theorem lays_statementRule : Lays call Expr.Located statementRule Stmt.roots := by
  refine .orElse (.fmap (lays_block statements) fun _ => by simp [Stmt.roots]) ?_
  refine .orElse (lays_ifStatement expressions statements) ?_
  refine .orElse (lays_whileStatement expressions statements) ?_
  refine .orElse (lays_doStatement expressions statements) ?_
  refine .orElse (lays_forStatement expressions statements) ?_
  refine .orElse (.located (.left (.right (lays_optional expressions))) fun _ _ => by
    simp [Stmt.roots]) ?_
  refine .orElse (.located (.left (.right expressions)) fun _ _ => by simp [Stmt.roots]) ?_
  refine .orElse lays_jumpStatement ?_
  refine .orElse (.located (.left (lays_localVariable expressions)) fun _ _ => by
    simp [Stmt.roots]) ?_
  exact .located (.left expressions) fun _ _ => by simp [Stmt.roots]

omit expressions statements in
/-- The roots of a function stand behind its name, in its modifiers and in its body. -/
theorem roots_function (name : FunctionName) (s : Span)
    (p : List Parameter × List (Attribute ⊕ Invocation Unit) × Option (List Parameter) × Option (Block Unit)) :
    Member.roots (.function
      { id := 0, name, params := p.1, attributes := p.2.1.filterMap Sum.getLeft?
        modifiers := p.2.1.filterMap Sum.getRight?, returns := p.2.2.1.getD [], body := p.2.2.2, span := s }) =
      p.2.1.flatMap (Sum.elim (fun _ => []) Invocation.args) ++
        (p.2.2.2.map fun b => Stmt.rootsAll b.body).getD [] := by
  have modifiers : ∀ items : List (Attribute ⊕ Invocation Unit),
      (items.filterMap Sum.getRight?).flatMap Invocation.args =
        items.flatMap (Sum.elim (fun _ => []) Invocation.args) := by
    intro items
    induction items with
    | nil => rfl
    | cons i items ih => cases i <;> simp [List.filterMap_cons, ih]
  simp [Member.roots, FunctionDef.roots, modifiers]

theorem lays_functionRest : Lays call Expr.Located
    (.seq parameters (.seq (.many headItem) (.seq (.optional (keyword .returns *> parameters))
      ((some <$> block) <|> ((fun _ => none) <$> mark .semicolon)))))
    (fun p => p.2.1.flatMap (Sum.elim (fun _ => []) Invocation.args) ++
      (p.2.2.2.map fun b => Stmt.rootsAll b.body).getD []) where
  laid {o p ts rest} reading := by
    have items : Lays call Expr.Located headItem (Sum.elim (fun _ => []) Invocation.args) :=
      .orElse (.fmap .silent fun _ => rfl) (.fmap (lays_invocation expressions) fun _ => rfl)
    have body : Lays call Expr.Located ((some <$> block) <|> ((fun _ => none) <$> mark .semicolon))
        (fun b => (b.map fun b => Stmt.rootsAll b.body).getD []) :=
      .orElse (.fmap (lays_block statements) fun _ => rfl) (.fmap .silent fun _ => rfl)
    exact (Lays.seq .silent (.seq (.many items) (.seq .silent body))).laid reading

theorem lays_function : Lays call Expr.Located function Member.roots :=
  .located (.seq .silent (lays_functionRest expressions statements)) fun s p => roots_function p.1 s p.2

theorem lays_member : Lays call Expr.Located member Member.roots := by
  refine .orElse (lays_function expressions statements) ?_
  refine .orElse (.located (.seq .silent (.seq .silent (lays_block statements)))
    fun _ _ => by simp [Member.roots]) ?_
  refine .orElse (.located .silent fun _ _ => rfl) ?_
  refine .orElse (.located .silent fun _ _ => rfl) ?_
  refine .orElse (.located .silent fun _ _ => rfl) ?_
  refine .orElse (.located .silent fun _ _ => rfl) ?_
  exact .located (.seq .silent (.seq .silent (.left (lays_initializer expressions)))) fun _ _ => by
    simp [Member.roots]

end Statements

section Contracts

theorem span_member {o : Nat} {m : Member Unit} {ts rest : List Spaced}
    (h : (Rule.meaning call member).reads o m ts rest) : m.span = extent o ts := by
  repeat
    rcases Rule.reads_orElse.1 h with h | ⟨-, h⟩
    · obtain ⟨_, rfl, -⟩ := Rule.reads_located.1 h
      rfl
  obtain ⟨_, rfl, -⟩ := Rule.reads_located.1 h
  rfl

theorem lays_bases (expressions : Lays call Expr.Located expression fun e => [e]) :
    Lays call Expr.Located
      (.optional ((fun p => p.1 :: p.2) <$> (keyword .is *> Rule.separated1 base (mark .comma))))
      fun bs => (bs.getD []).flatMap Base.roots where
  laid {o bases ts rest} reading := by
    have several : Lays call Expr.Located
        ((fun p => p.1 :: p.2) <$> (keyword .is *> Rule.separated1 base (mark .comma)))
        (fun bs => bs.flatMap Base.roots) :=
      .fmap (.right (.separated1 (lays_base expressions))) fun _ => rfl
    have laid := (Lays.optional several).laid reading
    cases bases <;> exact laid

theorem placed_contract
    (calls : ∀ {n o a ts rest}, (call n).reads o a ts rest → ts ≠ [])
    (expressions : Lays call Expr.Located expression fun e => [e])
    (statements : Lays call Expr.Located statement Stmt.roots) {o : Nat} {n : Node Unit}
    {ts rest : List Spaced} (h : (Rule.meaning call contract).reads o n ts rest) :
    ∃ c, n = .contract c ∧ c.Placed o ts := by
  obtain ⟨⟨kind, name, bases, members⟩, rfl, ks, _, rfl, -, ns, _, rfl, -, bs, _, rfl, hbases,
    body⟩ := Rule.reads_located.1 h
  obtain ⟨a, ms, b, rfl, opens, closes, hmembers⟩ := Rule.reads_between.1 body
  have inBases := (lays_bases expressions).laid hbases
  have inMembers := (Lays.many (lays_member expressions statements)).laid hmembers
  obtain ⟨front, same⟩ : ∃ front, front = ks ++ ns ++ bs ++ [a] := ⟨_, rfl⟩
  have whole : ks ++ (ns ++ (bs ++ (a :: ms ++ [b]))) = front ++ (ms ++ [b]) := by simp [same]
  have place : o + width ks + width ns + width bs + width [a] = o + width front := by
    simp [same, Nat.add_assoc]
  rw [place] at inMembers hmembers
  refine ⟨_, rfl, by simp, rfl, front, ms ++ [b], whole, ⟨_, a, same, opens⟩, ?_, ?_, ?_⟩
  · have laid := (((Laid.nil o ks).append (.nil _ ns)).append
      (by simpa [Nat.add_assoc] using inBases)).append (.nil _ [a])
    simpa [same] using laid
  · simpa using inMembers.append (.nil _ [b])
  · rw [whole]
    cases members with
    | nil =>
        obtain ⟨rfl, -⟩ := hmembers
        have last := Token.width_pos (List.cons_ne_nil b [])
        have stop : (extent o (front ++ ([] ++ [b]))).stop = o + width front + width [b] := by
          simp [Token.extent_stop, Nat.add_assoc]
        simp only [Contract.entry, stop]
        exact ⟨by omega, by omega, .inl ⟨trivial, by simp [closes]⟩⟩
    | cons m members =>
        obtain ⟨us, vs, rfl, reading, -⟩ := hmembers
        have some := Rule.taken_ne_nil calls (by rfl) reading
        have start : m.span.start = (extent (o + width front) (us ++ vs ++ [b])).start := by
          rw [span_member reading, List.append_assoc us, Token.extent_append _ some]
        have stop : (extent o (front ++ (us ++ vs ++ [b]))).stop =
            (extent (o + width front) (us ++ vs ++ [b])).stop := by
          simp [Token.extent_stop, Nat.add_assoc]
        simp only [Contract.entry, start, stop]
        exact ⟨Token.le_extent _ _, Token.extent_lt _ (by simp), .inr trivial⟩

end Contracts

end Grammar.Phrase
end SafeSubset
