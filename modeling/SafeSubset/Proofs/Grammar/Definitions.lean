import SafeSubset.Proofs.Grammar.Combinators

/-! Where a definition at the top of a file ends. A directive ends at its first
semicolon, and a contract at the first brace that closes the last open bracket, so
the kinds of the tokens alone say how a file is cut into its definitions. -/
namespace SafeSubset.Grammar

open Token (Keyword Mark Kind Spaced width)

/-- How far the tokens of a definition have come. -/
inductive Phase where
  | start
  | directive
  /-- In a contract, with so many open brackets. -/
  | nested (depth : Nat)
  | done
  deriving DecidableEq

namespace Phase

/-- One more token of a definition. No token stands behind its end. -/
def step : Phase → Kind → Option Phase
  | start, kind =>
      if kind ∈ [.keyword .pragma, .keyword .import] then some directive
      else if kind ∈ [.keyword .contract, .keyword .library, .keyword .interface] then some (nested 0)
      else none
  | directive, kind => if kind = .mark .semicolon then some done else some directive
  | nested depth, kind =>
      if kind ∈ [.mark .openParen, .mark .openBracket, .mark .openBrace] then some (nested (depth + 1))
      else if kind ∈ [.mark .closeParen, .mark .closeBracket] then
        match depth with
        | 0 => none
        | d + 1 => some (nested d)
      else if kind = .mark .closeBrace then
        match depth with
        | 0 => none
        | 1 => some done
        | d + 2 => some (nested (d + 1))
      else some (nested depth)
  | done, _ => none

def run (p : Phase) (kinds : List Kind) : Option Phase := kinds.foldlM step p

variable {p q : Phase} {kind : Kind} {xs ys as bs : List Kind}

theorem run_cons (p : Phase) (kind : Kind) (kinds : List Kind) :
    p.run (kind :: kinds) = (p.step kind).bind fun q => q.run kinds := rfl

theorem run_singleton (p : Phase) (kind : Kind) : p.run [kind] = p.step kind := by
  rw [run_cons]
  cases p.step kind <;> rfl

theorem run_append (p : Phase) (xs ys : List Kind) :
    p.run (xs ++ ys) = (p.run xs).bind fun q => q.run ys :=
  List.foldlM_append

/-- Two definitions at the front of the same tokens are the same. -/
theorem eq_of_done (first : p.run xs = some done) (second : p.run ys = some done)
    (same : xs ++ as = ys ++ bs) : xs = ys := by
  induction xs generalizing p ys with
  | nil =>
      cases first
      cases ys with
      | nil => rfl
      | cons y ys => cases second
  | cons x xs ih =>
      cases ys with
      | nil =>
          cases second
          cases first
      | cons y ys =>
          obtain ⟨rfl, tail⟩ : x = y ∧ xs ++ as = ys ++ bs := List.cons.inj same
          rw [run_cons] at first second
          cases next : p.step x with
          | none => simp [next] at first
          | some q =>
              rw [next] at first second
              rw [ih first second tail]

/-- More open brackets make no difference to a token that does not end the contract. -/
theorem step_nested {d : Nat} (k : Nat) (h : (nested d).step kind = some q) :
    q = done ∨ ∃ e, q = nested e ∧ (nested (d + k)).step kind = some (nested (e + k)) := by
  unfold step at h ⊢
  dsimp only at h ⊢
  split at h
  · next opens =>
    cases h
    exact .inr ⟨_, rfl, by rw [if_pos opens, Nat.add_right_comm]⟩
  · next other =>
    rw [if_neg other]
    split at h
    · next closes =>
      rw [if_pos closes]
      split at h
      · cases h
      · next d =>
        cases h
        exact .inr ⟨d, rfl, by rw [Nat.succ_add]⟩
    · next other =>
      rw [if_neg other]
      split at h
      · next closes =>
        rw [if_pos closes]
        split at h
        · cases h
        · exact .inl (Option.some.inj h).symm
        · next d =>
          cases h
          exact .inr ⟨d + 1, rfl, by rw [Nat.succ_add, Nat.succ_add]⟩
      · next other =>
        cases h
        exact .inr ⟨d, rfl, by rw [if_neg other]⟩

theorem run_nested {d e : Nat} (k : Nat) (h : (nested d).run xs = some (nested e)) :
    (nested (d + k)).run xs = some (nested (e + k)) := by
  induction xs generalizing d with
  | nil =>
      cases h
      rfl
  | cons x xs ih =>
      rw [run_cons] at h
      obtain ⟨q, next, rest⟩ := Option.bind_eq_some_iff.1 h
      rcases step_nested k next with rfl | ⟨f, rfl, shifted⟩
      · cases xs <;> cases rest
      · rw [run_cons, shifted]
        exact ih rest

end Phase

/-- How far a rule brings the tokens of a definition, whatever it reads, if the
nonterminals close the brackets that they open. -/
def Rule.passes {N : Type} {R : N → Type} (p : Phase) : {α : Type} → Rule R α → Option Phase
  | _, token kind => p.step kind
  | _, except kind => if p = .directive ∧ kind = .mark .semicolon then some p else none
  | _, word _ => p.step .identifier
  | _, .call _ =>
      match p with
      | .nested (_ + 1) => some p
      | _ => none
  | _, map _ r | _, spanned r | _, verbatim r => r.passes p
  | _, seq r s =>
      match r.passes p with
      | some q => s.passes q
      | none => none
  | _, choice r s => if r.passes p = s.passes p then r.passes p else none
  | _, optional r | _, many r => if r.passes p = some p then some p else none

section Rules

variable {N : Type} {R : N → Type} {call : (n : N) → Meaning (R n)} {α : Type} {p q : Phase}

/-- The kinds of some tokens. -/
abbrev kindsOf (ts : List Spaced) : List Kind := ts.map Spaced.kind

/-- The nonterminals close the brackets that they open, and no other. -/
def Balances (call : (n : N) → Meaning (R n)) : Prop :=
  ∀ n o a ts rest, (call n).reads o a ts rest →
    (Phase.nested 1).run (kindsOf ts) = some (Phase.nested 1)

theorem run_of_passes (balances : Balances call) {r : Rule R α} {o : Nat} {a : α}
    {ts rest : List Spaced} (reading : (r.meaning call).reads o a ts rest)
    (passes : r.passes p = some q) : p.run (kindsOf ts) = some q := by
  induction r generalizing o ts rest p q with
  | token kind =>
      obtain ⟨t, rfl, rfl, -⟩ := reading
      exact (p.run_singleton t.kind).trans passes
  | except kind =>
      obtain ⟨t, rfl, other, -⟩ := reading
      simp only [Rule.passes] at passes
      split at passes
      · next inside =>
        obtain ⟨rfl, rfl⟩ := inside
        cases passes
        simp [Phase.run, Phase.step, other]
      · cases passes
  | word meaning =>
      obtain ⟨t, rfl, kind, -⟩ := reading
      rw [kindsOf, List.map_singleton, kind]
      exact (p.run_singleton _).trans passes
  | call n =>
      simp only [Rule.passes] at passes
      split at passes
      · next d =>
        cases passes
        have deeper := Phase.run_nested d (balances n o a ts rest reading)
        rwa [Nat.add_comm 1 d] at deeper
      · cases passes
  | map f r ih =>
      obtain ⟨b, -, reading⟩ := reading
      exact ih reading passes
  | spanned r ih => exact ih reading.1 passes
  | verbatim r ih =>
      obtain ⟨⟨b, reading⟩, -⟩ := reading
      exact ih reading passes
  | seq r s ihr ihs =>
      obtain ⟨us, vs, rfl, first, second⟩ := reading
      simp only [Rule.passes] at passes
      split at passes
      · next middle first' =>
        rw [kindsOf, List.map_append, Phase.run_append, ihr first first']
        exact ihs second passes
      · cases passes
  | choice r s ihr ihs =>
      simp only [Rule.passes] at passes
      split at passes
      · next same =>
        rcases reading with reading | ⟨-, reading⟩
        · exact ihr reading passes
        · exact ihs reading (same ▸ passes)
      · cases passes
  | optional r ih =>
      simp only [Rule.passes] at passes
      split at passes
      · next stays =>
        cases passes
        rcases reading with ⟨b, -, reading⟩ | ⟨-, rfl, -⟩
        · exact ih reading stays
        · rfl
      · cases passes
  | many r ih =>
      simp only [Rule.passes] at passes
      split at passes
      · next stays =>
        cases passes
        induction a generalizing o ts with
        | nil =>
            obtain ⟨rfl, -⟩ := reading
            rfl
        | cons a as others =>
            obtain ⟨us, vs, rfl, first, rest'⟩ := reading
            rw [kindsOf, List.map_append, Phase.run_append, ih first stays]
            exact others rest'
      · cases passes

end Rules

namespace Phrase

variable {source : Source}

/-- The nonterminals of the language are balanced. -/
def Balanced : Property := fun _ _ _ ts _ =>
  (Phase.nested 1).run (kindsOf ts) = some (Phase.nested 1)

theorem balances_known : Balances (Symbol.known source Balanced) := fun _ _ _ _ _ h => h.2

theorem balanced_rules (n : Symbol) (o : Nat) (a : n.Value) (ts rest : List Spaced)
    (_ : Token.Holds source o (ts ++ rest))
    (h : (Rule.meaning (Symbol.known source Balanced) (rules n)).reads o a ts rest) :
    Balanced n o a ts rest := by
  refine run_of_passes balances_known h ?_
  cases n <;> rfl

/-- One definition. -/
abbrev definition : Phrase (Node Unit) := pragma <|> inclusion <|> contract

/-- A definition ends where its tokens say that it does. -/
theorem run_definition {o : Nat} {n : Node Unit} {ts rest : List Spaced}
    (h : (Rule.meaning (Symbol.known source Balanced) definition).reads o n ts rest) :
    Phase.start.run (kindsOf ts) = some .done :=
  run_of_passes balances_known h (by rfl)

/-- The kinds of the tokens of some definitions. -/
inductive Tops : List Kind → Prop where
  | nil : Tops []
  | cons {xs ys : List Kind} (one : Phase.start.run xs = some .done) (more : Tops ys) :
      Tops (xs ++ ys)

/-- What one definition means where the nonterminals are known to be balanced. -/
abbrev definitionMeaning (source : Source) : Meaning (Node Unit) :=
  Rule.meaning (Symbol.known source Balanced) definition

variable {o : Nat} {n : Node Unit} {ns : List (Node Unit)} {ts rest : List Spaced}

/-- Before a definition in a file there are the tokens of definitions. -/
theorem tops_before (reading : (definitionMeaning source).Repeats o ns ts rest) (member : n ∈ ns) :
    ∃ before us behind, ts = before ++ (us ++ behind) ∧ Tops (kindsOf before) ∧
      (definitionMeaning source).reads (o + width before) n us (behind ++ rest) := by
  induction ns generalizing o ts with
  | nil => cases member
  | cons m ns ih =>
      obtain ⟨us, vs, rfl, first, others⟩ := reading
      rcases List.mem_cons.1 member with rfl | member
      · exact ⟨[], us, vs, rfl, .nil, by simpa using first⟩
      · obtain ⟨before, ws, behind, rfl, tops, inside⟩ := ih others member
        refine ⟨us ++ before, ws, behind, by simp, ?_, by simpa [Nat.add_assoc] using inside⟩
        rw [kindsOf, List.map_append]
        exact .cons (run_definition first) tops

/-- A file whose tokens begin as those of some definitions is cut behind these. -/
theorem repeats_behind {xs ys : List Kind} (tops : Tops xs)
    (reading : (definitionMeaning source).Repeats o ns ts []) (begins : kindsOf ts = xs ++ ys) :
    ∃ before behind ns', ts = before ++ behind ∧ kindsOf before = xs ∧ (∀ n ∈ ns', n ∈ ns) ∧
      (definitionMeaning source).Repeats (o + width before) ns' behind [] := by
  induction tops generalizing o ns ts with
  | nil => exact ⟨[], ts, ns, rfl, rfl, fun _ member => member, reading⟩
  | @cons xs zs one more ih =>
      cases ns with
      | nil =>
          -- There are tokens, since a definition has one.
          obtain ⟨rfl, -⟩ := reading
          cases xs with
          | nil => cases one
          | cons x xs => cases begins
      | cons n ns =>
          obtain ⟨us, vs, rfl, first, others⟩ := reading
          rw [kindsOf, List.map_append, List.append_assoc] at begins
          have own := Phase.eq_of_done (run_definition first) one begins
          rw [← own, List.append_cancel_left_eq] at begins
          obtain ⟨before, behind, ns', rfl, kinds, inside, rest⟩ := ih others begins
          refine ⟨us ++ before, behind, ns', by simp, ?_, fun m member => ?_,
            by simpa [Nat.add_assoc] using rest⟩
          · rw [kindsOf, List.map_append]
            exact congrArg₂ _ own kinds
          · exact List.mem_cons_of_mem n (inside m member)

/-- A definition that starts with the keyword is the library of the name behind it. -/
theorem library_of_reads {t u : Spaced} {behind : List Spaced}
    (reading : (definitionMeaning source).reads o n ts rest)
    (begins : ts ++ rest = t :: u :: behind) (kind : t.kind = .keyword .library) :
    ∃ c, n = .contract c ∧ c.kind = .library ∧ c.name.text = String.ofList u.chars := by
  have directive : ∀ {k : Keyword} {build : Span → Unit → Node Unit}, k ≠ .library →
      ¬ (Rule.meaning (Symbol.known source Balanced)
        (Rule.located build (keyword k *> untilSemicolon))).reads o n ts rest := by
    intro k build other reading
    obtain ⟨_, -, inside⟩ := Rule.reads_located.1 reading
    obtain ⟨t', us, rfl, kind', -⟩ := Rule.reads_single.1 inside
    obtain ⟨rfl, -⟩ := List.cons.inj begins
    exact other (Kind.keyword.inj (kind'.symm.trans kind))
  rcases Rule.reads_orElse.1 reading with reading | ⟨-, reading⟩
  · exact absurd reading (directive (by decide))
  rcases Rule.reads_orElse.1 reading with reading | ⟨-, reading⟩
  · exact absurd reading (directive (by decide))
  obtain ⟨⟨k, name, bases, members⟩, rfl, ks, _, rfl, hk, is, vs, rfl, hi, -⟩ :=
    Rule.reads_located.1 reading
  obtain ⟨t', rfl, found⟩ := Rule.reads_oneOf.1 hk
  obtain ⟨l, same, u', rfl, -, rfl⟩ := hi
  obtain ⟨first, second⟩ : t' = t ∧ u' :: (vs ++ rest) = u :: behind := List.cons.inj begins
  have named : u' = u := (List.cons.inj second).1
  rw [first, kind] at found
  exact ⟨_, rfl, (Option.some.inj found).symm, named ▸ congrArg Ident.text same.symm⟩

/-- The span of a contract is that of its tokens. -/
theorem span_of_reads {c : Contract Unit}
    (reading : (definitionMeaning source).reads o (.contract c) ts rest) :
    ts ≠ [] ∧ c.span = Token.extent o ts := by
  have some : ts ≠ [] := by
    rintro rfl
    cases run_definition reading
  rcases Rule.reads_orElse.1 reading with reading | ⟨-, reading⟩
  · obtain ⟨_, other, -⟩ := Rule.reads_located.1 reading
    cases other
  rcases Rule.reads_orElse.1 reading with reading | ⟨-, reading⟩
  · obtain ⟨_, other, -⟩ := Rule.reads_located.1 reading
    cases other
  obtain ⟨_, same, -⟩ := Rule.reads_located.1 reading
  cases same
  exact ⟨some, rfl⟩

end Phrase

end SafeSubset.Grammar
