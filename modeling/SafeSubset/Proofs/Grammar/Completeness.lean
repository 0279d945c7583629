import SafeSubset.Proofs.Grammar.Opening
import SafeSubset.Proofs.Grammar.TypeNames

/-! Every expression that is spelled is read, up to places and types, where what
follows does not go on with it. An operand is read as the start of a chain before
one knows what follows, since more of the chain may. -/
namespace SafeSubset

open Token (Kind Keyword Mark Spaced Holds width extent core)

variable {α : Type}

theorem Expr.Spelled.group {e : Expr α} {ts : List Spaced} (h : e.Spelled ts) (leaf : e.children = []) :
    e.Groups [ts] ∧ e.Fits := by
  obtain ⟨gs, parts, groups, fits, -, children, weave⟩ := h.parts
  obtain ⟨rfl, -⟩ := weave.end (children.trans leaf)
  exact ⟨groups, fits⟩

/-- What follows starts with a mark, if there is anything. -/
def Marked (rest : List Spaced) : Prop := ∀ t ∈ rest.head?, ∃ m, t.kind = .mark m

theorem Follow.marked {n : Nat} {rest : List Spaced} (h : Follow n rest) : Marked rest := by
  intro t head
  obtain ⟨m, kind, -⟩ := h t head
  exact ⟨m, kind⟩

theorem marked_cons {t : Spaced} {m : Mark} (kind : t.kind = .mark m) (ts : List Spaced) :
    Marked (t :: ts) := by
  intro u head
  obtain rfl := Option.some.inj head
  exact ⟨m, kind⟩

namespace Grammar.Phrase

/-- What `R` reads is the expression up to places and types. -/
def Finds (source : Source) (R : Nat → Expr Unit → List Spaced → List Spaced → Prop) (e : Expr α)
    (ts rest : List Spaced) : Prop :=
  ∀ o, Holds source o (ts ++ rest) → ∃ e', R o e' ts rest ∧ e'.bare = e.bare

variable {source : Source} {o o' n k : Nat} {e l r : Expr α} {i : Info α} {ts us vs rest : List Spaced}
  {t : Spaced}

section Atoms

theorem head_ne {kind kind' : Kind} (kind_t : t.kind = kind) (other : kind ≠ kind') :
    ∀ u ∈ (t :: ts).head?, u.kind ≠ kind' := by
  intro u head
  obtain rfl := Option.some.inj head
  rwa [kind_t]

/-- A word that is no keyword, or a parenthesis, is none of the first atoms. -/
theorem reads_atom {e : Expr Unit} (kind : t.kind = .identifier ∨ t.kind = .mark .openParen)
    (h : Phrase.Reads source (elementaryName <|> name <|> tuple) o e (t :: us) rest) :
    Phrase.Reads source atom o e (t :: us) rest := by
  have other : ∀ {k : Kind}, k ≠ .identifier → k ≠ .mark .openParen →
      ∀ u ∈ (t :: us ++ rest).head?, u.kind ≠ k := by
    intro k word paren
    rcases kind with kind | kind
    · exact head_ne kind word.symm
    · exact head_ne kind paren.symm
  refine Rule.reads_orElse.2 (.inr ⟨fails_number (other nofun nofun), ?_⟩)
  refine Rule.reads_orElse.2 (.inr ⟨fails_string (other nofun nofun), ?_⟩)
  refine Rule.reads_orElse.2 (.inr ⟨fails_boolean (other nofun nofun) (other nofun nofun), ?_⟩)
  refine Rule.reads_orElse.2 (.inr ⟨fails_creation (other nofun nofun), ?_⟩)
  exact Rule.reads_orElse.2 (.inr ⟨fails_payableName (other nofun nofun), h⟩)

theorem finds_number {s : String} (h : (Expr.number i s).Spelled ts) (marked : Marked rest) :
    Finds source (Phrase.Reads source atom) (.number i s) ts rest := by
  intro o holds
  obtain ⟨groups, -⟩ := h.group rfl
  have reading : Phrase.Reads source number o (.number (untyped (extent o ts)) s) ts rest := by
    refine Rule.reads_located.2 ⟨s, rfl, ?_⟩
    rcases groups with ⟨t, same, kind, text⟩ | ⟨t, u, same, kind, kind', word, text⟩
    · cases same
      refine Rule.reads_verbatim.2 ⟨⟨(_, none), [t], [], rfl, ⟨t, rfl, kind, rfl⟩, ?_⟩, by simp [core, text]⟩
      refine Rule.reads_optional.2 (.inr ⟨rfl, rfl, Rule.fails_word.2 fun u head word => ?_⟩)
      obtain ⟨m, mark⟩ := marked u head
      cases mark.symm.trans word
    · cases same
      refine Rule.reads_verbatim.2 ⟨⟨(_, some ()), [t], [u], rfl, ⟨t, rfl, kind, rfl⟩, ?_⟩, text.symm⟩
      exact Rule.reads_optional.2 (.inl ⟨(), rfl, reads_unitWord.2 ⟨u, rfl, kind', word⟩⟩)
  exact ⟨_, Rule.reads_orElse.2 (.inl reading), rfl⟩

theorem finds_string {s : String} (h : (Expr.string i s).Spelled ts) :
    Finds source (Phrase.Reads source atom) (.string i s) ts rest := by
  intro o holds
  obtain ⟨⟨t, same, kind, text⟩, -⟩ := h.group rfl
  cases same
  have reading : Phrase.Reads source string o (.string (untyped (extent o [t])) s) [t] rest :=
    Rule.reads_located.2 ⟨t.lexeme o, by rw [← text]; rfl, t, rfl, kind, rfl⟩
  refine ⟨.string (untyped (extent o [t])) s, ?_, rfl⟩
  refine Rule.reads_orElse.2 (.inr ⟨fails_number (head_ne kind nofun), ?_⟩)
  exact Rule.reads_orElse.2 (.inl reading)

theorem finds_bool {b : Bool} (h : (Expr.bool i b).Spelled ts) :
    Finds source (Phrase.Reads source atom) (.bool i b) ts rest := by
  intro o holds
  obtain ⟨⟨t, same, kind⟩, -⟩ := h.group rfl
  cases same
  have reading : Phrase.Reads source boolean o (.bool (untyped (extent o [t])) b) [t] rest := by
    refine Rule.reads_located.2 ⟨b, rfl, Rule.reads_oneOf.2 ⟨t, rfl, ?_⟩⟩
    rw [kind]
    cases b <;> decide
  refine ⟨.bool (untyped (extent o [t])) b, ?_, rfl⟩
  refine Rule.reads_orElse.2 (.inr ⟨fails_number (head_ne kind nofun), ?_⟩)
  refine Rule.reads_orElse.2 (.inr ⟨fails_string (head_ne kind nofun), ?_⟩)
  exact Rule.reads_orElse.2 (.inl reading)

theorem finds_new {type : TypeName} (h : (Expr.new i type).Spelled ts) (marked : Marked rest)
    (ends : type.Ends rest) : Finds source (Phrase.Reads source atom) (.new i type) ts rest := by
  intro o holds
  obtain ⟨⟨t, us, same, kind, written⟩, -⟩ := h.group rfl
  cases same
  have inner : Holds source (o + width [t]) (us ++ rest) := holds.tail
  obtain ⟨type', typed, bare⟩ := reads_of_written written inner ends fun u head payable => by
    obtain ⟨m, mark⟩ := marked u head
    cases mark.symm.trans payable
  have reading : Phrase.Reads source creation o (.new (untyped (extent o (t :: us))) type') (t :: us) rest :=
    Rule.reads_located.2 ⟨type', rfl, Rule.reads_single.2 ⟨t, us, rfl, kind, typed⟩⟩
  refine ⟨.new (untyped (extent o (t :: us))) type', ?_, by simp [Expr.bare, bare]⟩
  refine Rule.reads_orElse.2 (.inr ⟨fails_number (head_ne kind nofun), ?_⟩)
  refine Rule.reads_orElse.2 (.inr ⟨fails_string (head_ne kind nofun), ?_⟩)
  refine Rule.reads_orElse.2 (.inr ⟨fails_boolean (head_ne kind nofun) (head_ne kind nofun), ?_⟩)
  exact Rule.reads_orElse.2 (.inl reading)

theorem finds_elementary {type : Ty} (h : (Expr.elementary i type).Spelled ts) :
    Finds source (Phrase.Reads source atom) (.elementary i type) ts rest := by
  intro o holds
  obtain ⟨⟨t, same, named⟩, -⟩ := h.group rfl
  cases same
  rcases named with ⟨kind, named⟩ | ⟨kind, rfl⟩
  · have reading : Phrase.Reads source elementaryName o (.elementary (untyped (extent o [t])) type) [t] rest :=
      Rule.reads_located.2 ⟨type, rfl, reads_elementaryWord.2 ⟨t, rfl, kind, named⟩⟩
    exact ⟨_, reads_atom (.inl kind) (Rule.reads_orElse.2 (.inl reading)), rfl⟩
  · have reading : Phrase.Reads source payableName o (.elementary (untyped (extent o [t])) .address) [t] rest :=
      Rule.reads_located.2 ⟨t.lexeme o, rfl, t, rfl, kind, rfl⟩
    refine ⟨.elementary (untyped (extent o [t])) .address, ?_, rfl⟩
    refine Rule.reads_orElse.2 (.inr ⟨fails_number (head_ne kind nofun), ?_⟩)
    refine Rule.reads_orElse.2 (.inr ⟨fails_string (head_ne kind nofun), ?_⟩)
    refine Rule.reads_orElse.2 (.inr ⟨fails_boolean (head_ne kind nofun) (head_ne kind nofun), ?_⟩)
    refine Rule.reads_orElse.2 (.inr ⟨fails_creation (head_ne kind nofun), ?_⟩)
    exact Rule.reads_orElse.2 (.inl reading)

theorem finds_identifier {name' : String} (h : (Expr.identifier i name').Spelled ts) :
    Finds source (Phrase.Reads source atom) (.identifier i name') ts rest := by
  intro o holds
  obtain ⟨⟨t, same, kind, text, own⟩, -⟩ := h.group rfl
  cases same
  have reading : Phrase.Reads source name o (.identifier (untyped (t.lexeme o).span) name') [t] rest := by
    refine Rule.reads_fmap.2 ⟨⟨name', (t.lexeme o).span⟩, rfl, reads_ident.2 ⟨t, rfl, kind, ?_⟩⟩
    rw [text]
  refine ⟨.identifier (untyped (t.lexeme o).span) name', reads_atom (.inl kind) ?_, rfl⟩
  refine Rule.reads_orElse.2 (.inr ⟨fails_elementaryName fun u head _ => ?_, ?_⟩)
  · obtain rfl := Option.some.inj head
    rwa [text]
  · exact Rule.reads_orElse.2 (.inl reading)

/-- What parentheses hold is read as a tuple. -/
theorem reads_tuple {e : Expr Unit} (kind : t.kind = .mark .openParen)
    (h : Phrase.Reads source tuple o e (t :: us) rest) : Phrase.Reads source atom o e (t :: us) rest := by
  refine reads_atom (.inr kind) (Rule.reads_orElse.2 (.inr ⟨fails_elementaryName fun u head word => ?_, ?_⟩))
  · obtain rfl := Option.some.inj head
    cases kind.symm.trans word
  · exact Rule.reads_orElse.2 (.inr ⟨fails_name (head_ne kind nofun), h⟩)

end Atoms

section Lists

variable {β : Type} {q : Phrase β} {part : β → Expr Unit} {lead : β → Option String}
  {names : List (Option String)} {gs : List (List Spaced)} {parts : List (Expr α × List Spaced)}
  {m : Mark} {ks opening : List Kind}

/-- The items of a list with any of the names are found, before what goes on with
none of them. -/
def FindsItems (source : Source) (q : Phrase β) (part : β → Expr Unit) (lead : β → Option String)
    (names : List (Option String)) (e : Expr α) (us : List Spaced) : Prop :=
  ∀ n ∈ names, ∀ o ls rest, Lead n ls → Holds source o (ls ++ us ++ rest) → Follow 14 rest →
    ∃ b, Phrase.Reads source q o b (ls ++ us) rest ∧ (part b).bare = e.bare ∧ lead b = n

theorem ListTail.ne_nil {closing : List Kind} (h : ListTail closing names gs) : gs ≠ [] := by
  cases names with
  | nil =>
      obtain ⟨g, rfl, -⟩ := h
      exact List.cons_ne_nil g []
  | cons n ns =>
      obtain ⟨t, ls, gs, rfl, -⟩ := h
      exact List.cons_ne_nil _ gs

/-- Behind an item stands a comma or what closes the list. -/
theorem follow_tail (closes : 14 < m.reach) (tail : ListTail (.mark m :: ks) names gs)
    {W : Nat → Expr α → List Spaced → Prop} (weave : Weave W o' gs parts ts) (rest : List Spaced) :
    Follow 14 (ts ++ rest) := by
  cases names with
  | nil =>
      obtain ⟨g, rfl, kinds⟩ := tail
      obtain ⟨-, rfl⟩ := weave.only
      obtain ⟨t, ts, rfl, kind, -⟩ := List.map_eq_cons_iff.1 kinds
      exact follow_cons kind closes _
  | cons n ns =>
      obtain ⟨t, ls, gs, rfl, comma, -⟩ := tail
      cases weave <;> exact follow_cons comma (by decide) _

/-- An item before others is found, and so are these behind it. -/
theorem reads_item (closes : 14 < m.reach) {n : Option String} {ls : List Spaced} (leads : Lead n ls)
    (others : ListTail (.mark m :: ks) names gs) (finds : FindsItems source q part lead (n :: names) e us)
    (behind : Weave (fun _ => FindsItems source q part lead (n :: names)) o' gs parts vs)
    (holds : Holds source o (ls ++ us ++ (vs ++ rest))) :
    Weave (fun _ => FindsItems source q part lead names) o' gs parts vs ∧
      ∃ b, Phrase.Reads source q o b (ls ++ us) (vs ++ rest) ∧ (part b).bare = e.bare ∧ lead b = n := by
  have behind' : Weave (fun _ => FindsItems source q part lead names) o' gs parts vs :=
    behind.anywhere (fun _ _ _ finds _ n member => finds n (List.mem_cons_of_mem _ member)) o'
  exact ⟨behind', finds n List.mem_cons_self _ ls (vs ++ rest) leads holds
    (follow_tail closes others behind' rest)⟩

/-- The items of a list behind the first one. -/
theorem repeats_of_tail (closes : 14 < m.reach) (other : m ≠ .comma)
    (tail : ListTail (.mark m :: ks) names gs)
    (weave : Weave (fun _ => FindsItems source q part lead names) o' gs parts ts)
    (holds : Holds source o (ts ++ rest)) :
    ∃ bs us cs, ts = us ++ cs ∧ cs.map Spaced.kind = .mark m :: ks ∧
      (Rule.meaning (Symbol.meaning source) (mark .comma *> q)).Repeats o bs us (cs ++ rest) ∧
      bs.map (fun b => (part b).bare) = parts.map (fun p => p.1.bare) ∧ bs.map lead = names := by
  induction names generalizing gs parts ts o o' with
  | nil =>
      obtain ⟨g, rfl, kinds⟩ := tail
      obtain ⟨rfl, rfl⟩ := weave.only
      obtain ⟨t, ts, rfl, kind, -⟩ := List.map_eq_cons_iff.1 kinds
      refine ⟨[], [], t :: ts, rfl, kinds, ⟨rfl, Rule.fails_single.2 (.inl fun u head => ?_)⟩, rfl, rfl⟩
      obtain rfl := Option.some.inj head
      simpa [kind] using other
  | cons n ns ih =>
      obtain ⟨t, ls, gs, rfl, comma, leads, others⟩ := tail
      cases weave with
      | last => exact absurd rfl (ListTail.ne_nil others)
      | @part _ g us vs e gs parts finds behind =>
          have split : t :: ls ++ us ++ vs ++ rest = [t] ++ (ls ++ us ++ (vs ++ rest)) := by simp
          rw [split] at holds
          have inner := holds.right
          obtain ⟨weave', b, reading, bare, named⟩ := reads_item closes leads others finds behind inner
          obtain ⟨bs, us', cs, rfl, kinds, more, bares, leads'⟩ := ih others weave' inner.right
          rw [List.append_assoc us'] at reading
          refine ⟨b :: bs, t :: (ls ++ us) ++ us', cs, by simp, kinds,
            ⟨t :: (ls ++ us), us', rfl, ?_, ?_⟩, by simp [bare, bares], by simp [named, leads']⟩
          · exact Rule.reads_single.2 ⟨t, ls ++ us, rfl, comma, reading⟩
          · have place : o + width [t] + width (ls ++ us) = o + width (t :: (ls ++ us)) := by
              simp [Token.width_cons, Nat.add_assoc]
            rwa [place] at more

/-- The items of a list, between what opens and what closes it. -/
theorem reads_of_listed (closes : 14 < m.reach) (other : m ≠ .comma)
    (listed : Listed opening (.mark m :: ks) names gs)
    (weave : Weave (fun _ => FindsItems source q part lead names) o' gs parts ts)
    (missing : ∀ o cs, cs.map Spaced.kind = .mark m :: ks → Holds source o (cs ++ rest) →
      Phrase.Fails source q o (cs ++ rest))
    (holds : Holds source o (ts ++ rest)) :
    ∃ os bs us cs, ts = os ++ us ++ cs ∧ os.map Spaced.kind = opening ∧
      cs.map Spaced.kind = .mark m :: ks ∧
      Phrase.Reads source (commas q) (o + width os) bs us (cs ++ rest) ∧
      bs.map (fun b => (part b).bare) = parts.map (fun p => p.1.bare) ∧ bs.map lead = names := by
  cases names with
  | nil =>
      obtain ⟨g, rfl, kinds⟩ := listed
      obtain ⟨rfl, rfl⟩ := weave.only
      obtain ⟨os, cs, rfl, first, last⟩ := List.map_eq_append_iff.1 kinds
      refine ⟨os, [], [], cs, by simp, first, last, Rule.reads_separated.2 (.inl ⟨rfl, rfl, ?_⟩), rfl, rfl⟩
      rw [List.append_assoc] at holds
      exact missing _ cs last holds.right
  | cons n ns =>
      obtain ⟨os, ls, gs, rfl, kinds, leads, others⟩ := listed
      cases weave with
      | last => exact absurd rfl (ListTail.ne_nil others)
      | @part _ g us vs e gs parts finds behind =>
          have split : os ++ ls ++ us ++ vs ++ rest = os ++ (ls ++ us ++ (vs ++ rest)) := by simp
          rw [split] at holds
          have inner := holds.right
          obtain ⟨weave', b, reading, bare, named⟩ := reads_item closes leads others finds behind inner
          obtain ⟨bs, us', cs, rfl, kinds', more, bares, leads'⟩ :=
            repeats_of_tail closes other others weave' inner.right
          rw [List.append_assoc us'] at reading
          refine ⟨os, b :: bs, ls ++ us ++ us', cs, by simp, kinds, kinds', ?_, by simp [bare, bares],
            by simp [named, leads']⟩
          exact Rule.reads_separated.2 (.inr ⟨b, bs, ls ++ us, us', rfl, rfl, reading, more⟩)

end Lists

section Levels

/-- The phrase that reads all that binds no more loosely than level `n`, which is
no conditional and no assignment. -/
def phraseOf : Nat → Phrase (Expr Unit)
  | 0 => suffixed
  | n + 1 => tier n

/-- An atom with suffixes behind it. -/
abbrev ChainedSuffixes (source : Source) : Nat → Expr Unit → List Spaced → List Spaced → Prop :=
  Rule.Chained (Symbol.meaning source) atom suffix Suffix.apply

/-- Operands with operators of one level between them. -/
abbrev ChainedOperands (source : Source) (k : Nat) (level : Level) :
    Nat → Expr Unit → List Spaced → List Spaced → Prop :=
  Rule.Chained (Symbol.meaning source) (tier k) (.seq (markOf level.1 level.2) (tier k))
    fun s e t => .binary (untyped s) t.1 e t.2

/-- What is found of an expression by the phrases that can read it: by those for
chains wherever its tokens stand, by the others before what does not go on with
it. -/
structure Complete (source : Source) (e : Expr α) : Prop where
  base : e.level = 0 → ∀ ts rest, e.Spelled ts → Marked rest →
    (∀ t, e.created? = some t → t.Ends rest) → Finds source (ChainedSuffixes source) e ts rest
  run : ∀ k level, levels[k]? = some level → e.level ≤ k + 2 → ∀ ts rest, e.Spelled ts →
    Follow (k + 1) rest → Finds source (ChainedOperands source k level) e ts rest
  tight : ∀ n ≤ 12, e.level ≤ n → ∀ ts rest, e.Spelled ts → Follow n rest →
    Finds source (Phrase.Reads source (phraseOf n)) e ts rest
  whole : ∀ ts rest, e.Spelled ts → Follow 14 rest → Finds source (Phrase.Reads source expression) e ts rest

theorem exists_level (lt : k < 11) : ∃ level, levels[k]? = some level :=
  ⟨levels[k], List.getElem?_eq_getElem lt⟩

/-- What a phrase reads the next looser one reads as well. -/
theorem reads_looser {e : Expr Unit} (lt : n < 12) (some : ts ≠ []) (follow : Follow (n + 1) rest)
    (plain : n = 0 → ∀ u ∈ ts.head?, ∀ op : UnaryOp, u.kind ≠ op.kind)
    (holds : Holds source o (ts ++ rest)) (h : Phrase.Reads source (phraseOf n) o e ts rest) :
    Phrase.Reads source (phraseOf (n + 1)) o e ts rest := by
  cases n with
  | zero =>
      refine Symbol.reads_of_rule (n := .operand) holds (Rule.reads_orElse.2 (.inr ⟨?_, h⟩))
      refine Rule.fails_located.2 (Rule.fails_seq.2 (.inl (fails_unaryOperator ?_)))
      obtain ⟨t, us, rfl⟩ := List.exists_cons_of_ne_nil some
      exact plain rfl
  | succ k =>
      obtain ⟨level, found⟩ := exists_level (show k < 11 by omega)
      show Phrase.Reads source (tier (k + 1)) o e ts rest
      rw [tier_succ found]
      exact Rule.Chained.reads (.head some h) (fails_level found follow)

theorem finds_looser (spelled : e.Spelled ts) (le : e.level ≤ n) (bound : n ≤ 12) (follow : Follow n rest)
    (finds : Finds source (Phrase.Reads source (phraseOf e.level)) e ts rest) :
    Finds source (Phrase.Reads source (phraseOf n)) e ts rest := by
  induction n, le using Nat.le_induction with
  | base => exact finds
  | succ n le ih =>
      intro o holds
      obtain ⟨e', reading, same⟩ := ih (by omega) (follow.mono (by omega)) o holds
      refine ⟨e', reads_looser (by omega) spelled.ne_nil follow ?_ holds reading, same⟩
      rintro rfl u head op
      obtain ⟨us, rfl⟩ := List.head?_eq_some_iff.1 head
      exact spelled.starts.plain (Nat.le_zero.1 le) op

/-- Where there is neither a condition nor an assignment, an expression is what
stands before them. -/
theorem reads_expression {e : Expr Unit} (holds : Holds source o (ts ++ rest)) (follow : Follow 14 rest)
    (h : Phrase.Reads source (phraseOf 12) o e ts rest) : Phrase.Reads source expression o e ts rest := by
  have branches : Phrase.Reads source conditional o e ts rest := by
    refine Rule.reads_located.2 ⟨(e, none), rfl, ts, [], (List.append_nil ts).symm, h, ?_⟩
    exact Rule.reads_optional.2 (.inr ⟨rfl, rfl, fails_branches (follow.mono (by decide))⟩)
  have whole : Phrase.Reads source expressionRule o e ts rest := by
    refine Rule.reads_located.2 ⟨(e, none), rfl, ts, [], (List.append_nil ts).symm, branches, ?_⟩
    exact Rule.reads_optional.2 (.inr ⟨rfl, rfl, fails_assignment follow⟩)
  exact Symbol.reads_of_rule (n := .expression) holds whole

/-- What is found at the level of a node is found at every looser one. -/
theorem complete_of_level (bound : e.level ≤ 12)
    (own : ∀ ts rest, e.Spelled ts → Follow e.level rest →
      Finds source (Phrase.Reads source (phraseOf e.level)) e ts rest)
    (base : e.level = 0 → ∀ ts rest, e.Spelled ts → Marked rest →
      (∀ t, e.created? = some t → t.Ends rest) → Finds source (ChainedSuffixes source) e ts rest)
    (run : ∀ k level, levels[k]? = some level → e.level = k + 2 → ∀ ts rest, e.Spelled ts →
      Follow (k + 1) rest → Finds source (ChainedOperands source k level) e ts rest) :
    Complete source e := by
  have tight : ∀ n ≤ 12, e.level ≤ n → ∀ ts rest, e.Spelled ts → Follow n rest →
      Finds source (Phrase.Reads source (phraseOf n)) e ts rest := fun n bound le ts rest spelled follow =>
    finds_looser spelled le bound follow (own ts rest spelled (follow.mono le))
  refine ⟨base, ?_, tight, ?_⟩
  · intro k level found le ts rest spelled follow
    rcases Nat.lt_or_eq_of_le le with less | same
    · intro o holds
      have inside : k < levels.length := (List.getElem?_eq_some_iff.1 found).1
      have inside : k < 11 := inside
      obtain ⟨e', reading, same⟩ := tight (k + 1) (by omega) (by omega) ts rest spelled follow o holds
      exact ⟨e', .head spelled.ne_nil reading, same⟩
    · exact run k level found same ts rest spelled follow
  · intro ts rest spelled follow o holds
    obtain ⟨e', reading, same⟩ := tight 12 (Nat.le_refl 12) bound ts rest spelled
      (follow.mono (by decide)) o holds
    exact ⟨e', reads_expression holds follow reading, same⟩

/-- An atom or a suffix is read as the start of a chain. -/
theorem complete_of_base (level : e.level = 0)
    (base : ∀ ts rest, e.Spelled ts → Marked rest → (∀ t, e.created? = some t → t.Ends rest) →
      Finds source (ChainedSuffixes source) e ts rest) : Complete source e := by
  refine complete_of_level (by omega) ?_ (fun _ => base) fun k _ _ same => by omega
  intro ts rest spelled follow o holds
  rw [level] at follow ⊢
  obtain ⟨e', chained, same⟩ := base ts rest spelled follow.marked (fun t _ => follow.ends t) o holds
  exact ⟨e', chained.reads (fails_suffix follow), same⟩

/-- An atom is complete if it is found as one. -/
theorem complete_of_atom (level : e.level = 0)
    (finds : ∀ ts rest, e.Spelled ts → Marked rest → (∀ t, e.created? = some t → t.Ends rest) →
      Finds source (Phrase.Reads source atom) e ts rest) : Complete source e := by
  refine complete_of_base level fun ts rest spelled marked ends o holds => ?_
  obtain ⟨e', reading, same⟩ := finds ts rest spelled marked ends o holds
  exact ⟨e', .head spelled.ne_nil reading, same⟩

end Levels

section Nodes

variable {names : List (Option String)} {gs : List (List Spaced)} {parts : List (Expr α × List Spaced)}
  {args : List (Expr α)} {is : List Ident} {m : Mark}

theorem findsItems_expression (names : List (Option String)) (plain : ∀ n ∈ names, n = none)
    (complete : Complete source e)
    (spelled : e.Spelled us) : FindsItems source expression id (fun _ => none) names e us := by
  intro n member o ls rest leads holds follow
  obtain rfl := plain n member
  obtain rfl : ls = [] := leads
  obtain ⟨e', reading, same⟩ := complete.whole us rest spelled follow o holds
  exact ⟨e', reading, same, rfl⟩

theorem findsItems_named (names : List (Option String)) (named : ∀ n ∈ names, ∃ x, n = some x)
    (complete : Complete source e)
    (spelled : e.Spelled us) :
    FindsItems source (.seq (ident <* mark .colon) expression) Prod.snd (fun p => some p.1.text) names
      e us := by
  intro n member o ls rest leads holds follow
  obtain ⟨x, rfl⟩ := named n member
  obtain ⟨t, c, rfl, kind, text, colon⟩ := leads
  rw [List.append_assoc] at holds
  obtain ⟨e', reading, same⟩ := complete.whole us rest spelled follow _ holds.right
  refine ⟨(⟨x, (t.lexeme o).span⟩, e'), ⟨[t, c], us, rfl, ?_, reading⟩, same, rfl⟩
  refine Rule.reads_before.2 ⟨[t], c, rfl, colon, reads_ident.2 ⟨t, rfl, kind, ?_⟩⟩
  rw [text]

/-- Parts that are spelled are found as items of a list. -/
theorem weave_items {β : Type} {q : Phrase β} {part : β → Expr Unit} {lead : β → Option String}
    (items : ∀ e ∈ args, ∀ us, e.Spelled us → FindsItems source q part lead names e us)
    (exprs : parts.map Prod.fst = args) (weave : Weave (fun _ e us => e.Spelled us) o' gs parts ts) :
    Weave (fun _ => FindsItems source q part lead names) o' gs parts ts :=
  weave.anywhere (fun p member _ spelled _ =>
    items p.1 (exprs ▸ List.mem_map_of_mem member) p.2 spelled) o'

/-- What closes a list is no item. -/
theorem missing_expression {ks : List Kind} (closing : m.opens = false) (o : Nat) (cs : List Spaced)
    (kinds : cs.map Spaced.kind = .mark m :: ks) (holds : Holds source o (cs ++ rest)) :
    Phrase.Fails source expression o (cs ++ rest) := by
  obtain ⟨b, cs, rfl, kind, -⟩ := List.map_eq_cons_iff.1 kinds
  exact fails_expression holds (closes_cons kind closing _)

theorem missing_named {ks : List Kind} (o : Nat) (cs : List Spaced)
    (kinds : cs.map Spaced.kind = .mark m :: ks) :
    Phrase.Fails source (.seq (ident <* mark .colon) expression) o (cs ++ rest) := by
  obtain ⟨b, cs, rfl, kind, -⟩ := List.map_eq_cons_iff.1 kinds
  exact Rule.fails_seq.2 (.inl (Rule.fails_seqLeft.2 (.inl (fails_ident.2 (head_ne kind nofun)))))

theorem map_bare (exprs : parts.map Prod.fst = args) :
    parts.map (fun p => p.1.bare) = args.map Expr.bare := by
  rw [← exprs, List.map_map]
  rfl

/-- Between parentheses no brace stands first. -/
theorem no_brace {b : Spaced} {es : List (Expr Unit)} (kind : b.kind = .mark .closeParen)
    (holds : Holds source o (us ++ b :: rest))
    (reading : Phrase.Reads source (commas expression) o es us (b :: rest)) :
    ∀ t ∈ (us ++ b :: rest).head?, t.kind ≠ .mark .openBrace := by
  intro t head brace
  rcases Rule.reads_separated.1 reading with ⟨-, rfl, -⟩ | ⟨e, es, us, vs, -, rfl, first, -⟩
  · obtain rfl := Option.some.inj head
    cases kind.symm.trans brace
  · rw [List.append_assoc] at holds head
    have spelled := (sound_of_reads (n := .expression) holds first).1.spelled
    obtain ⟨u, us', rfl⟩ := List.exists_cons_of_ne_nil spelled.ne_nil
    obtain rfl := Option.some.inj head
    exact Bool.false_ne_true (spelled.starts.opens _ brace)

/-- Expressions in parentheses are read as such. -/
theorem finds_parens (inner : ∀ c ∈ args, Complete source c)
    (listed : Listed [.mark .openParen] [.mark .closeParen] (args.map fun _ => none) gs)
    (weave : Weave (fun _ e us => e.Spelled us) o' gs parts ts) (exprs : parts.map Prod.fst = args)
    (holds : Holds source o (ts ++ rest)) :
    ∃ a us b es, ts = a :: us ++ [b] ∧ a.kind = .mark .openParen ∧ b.kind = .mark .closeParen ∧
      Phrase.Reads source (commas expression) (o + width [a]) es us (b :: rest) ∧
      es.map Expr.bare = args.map Expr.bare := by
  have items := weave_items (fun e member us spelled =>
    findsItems_expression (args.map fun _ => none) (by simp) (inner e member) spelled) exprs weave
  obtain ⟨os, es, us, cs, rfl, opens, closes, reading, bares, -⟩ := reads_of_listed (by decide)
    (by decide) listed items (fun o cs kinds => missing_expression rfl o cs kinds) holds
  obtain ⟨a, _, rfl, kind, none⟩ := List.map_eq_cons_iff.1 opens
  obtain rfl := List.map_eq_nil_iff.1 none
  obtain ⟨b, _, rfl, kind', none⟩ := List.map_eq_cons_iff.1 closes
  obtain rfl := List.map_eq_nil_iff.1 none
  exact ⟨a, us, b, es, rfl, kind, kind', reading, bares.trans (map_bare exprs)⟩

/-- Named arguments in their braces are read as such. -/
theorem finds_braces (inner : ∀ c ∈ args, Complete source c)
    (listed : Listed [.mark .openParen, .mark .openBrace] [.mark .closeBrace, .mark .closeParen]
      (is.map fun n => some n.text) gs)
    (weave : Weave (fun _ e us => e.Spelled us) o' gs parts ts) (exprs : parts.map Prod.fst = args)
    (holds : Holds source o (ts ++ rest)) :
    ∃ a us b ps, ts = a :: us ++ [b] ∧ a.kind = .mark .openParen ∧ b.kind = .mark .closeParen ∧
      Phrase.Reads source namedArguments (o + width [a]) ps us (b :: rest) ∧
      (ps.map Prod.snd).map Expr.bare = args.map Expr.bare ∧
      (ps.map Prod.fst).map Ident.bare = is.map Ident.bare := by
  have items := weave_items (fun e member us spelled =>
    findsItems_named (is.map fun n => some n.text) (by simp) (inner e member) spelled) exprs weave
  obtain ⟨os, ps, us, cs, rfl, opens, closes, reading, bares, named⟩ := reads_of_listed (by decide)
    (by decide) listed items (fun o cs kinds _ => missing_named o cs kinds) holds
  obtain ⟨a, _, rfl, kind, opens⟩ := List.map_eq_cons_iff.1 opens
  obtain ⟨c, _, rfl, brace, none⟩ := List.map_eq_cons_iff.1 opens
  obtain rfl := List.map_eq_nil_iff.1 none
  obtain ⟨d, _, rfl, brace', closes⟩ := List.map_eq_cons_iff.1 closes
  obtain ⟨b, _, rfl, kind', none⟩ := List.map_eq_cons_iff.1 closes
  obtain rfl := List.map_eq_nil_iff.1 none
  refine ⟨a, c :: us ++ [d], b, ps, by simp, kind, kind', ?_, ?_, ?_⟩
  · refine Rule.reads_between.2 ⟨c, us, d, rfl, brace, brace', ?_⟩
    simpa [Token.width_cons, Nat.add_assoc] using reading
  · rw [List.map_map]
    exact bares.trans (map_bare exprs)
  · refine Ident.map_bare_congr ?_
    have texts : (ps.map fun p => some p.1.text) = is.map fun n => some n.text := named
    rw [List.map_map]
    refine List.map_injective_iff.2 (fun _ _ => Option.some.inj) ?_
    simpa [Function.comp_def] using texts

theorem complete_tuple (inner : ∀ c ∈ args, Complete source c) : Complete source (.tuple i args) := by
  refine complete_of_atom rfl fun ts rest spelled _ _ o holds => ?_
  obtain ⟨gs, parts, groups, -, -, children, weave⟩ := spelled.parts
  obtain ⟨a, us, b, es, rfl, kind, kind', reading, bares⟩ := finds_parens inner groups weave children holds
  refine ⟨.tuple (untyped (extent o (a :: us ++ [b]))) es, reads_tuple kind ?_, ?_⟩
  · exact Rule.reads_located.2 ⟨es, rfl, Rule.reads_between.2 ⟨a, us, b, rfl, kind, kind', reading⟩⟩
  · simp [Expr.bare, Expr.bares_eq, bares, Info.bare]

/-- The tokens of parts start with those of the first group. -/
theorem Weave.cons {ε : Type} {W : Nat → ε → List Spaced → Prop} {g : List Spaced}
    {parts : List (ε × List Spaced)} (weave : Weave W o ((t :: g) :: gs) parts ts) :
    ∃ us, ts = t :: us := by
  cases weave with
  | last => exact ⟨g, rfl⟩
  | part _ us => exact ⟨_, rfl⟩

/-- A mark other than a bracket or a dot ends every type. -/
theorem ends_of_mark {type : TypeName} (kind : t.kind = .mark m) (bracket : m ≠ .openBracket)
    (dot : m ≠ .dot) (us : List Spaced) : type.Ends (t :: us) := by
  refine ⟨?_, ?_, ?_⟩
  · rintro a b more same opens
    cases same
    exact absurd (Kind.mark.inj (kind.symm.trans opens)) bracket
  · rintro a n b more same opens
    cases same
    exact absurd (Kind.mark.inj (kind.symm.trans opens)) bracket
  · rintro s p - d n more same same'
    cases same
    exact absurd (Kind.mark.inj (kind.symm.trans same')) dot

/-- Suffixes of one node behind those of another. -/
theorem finds_suffix {x : Suffix} {e' : Expr Unit}
    (chained : ChainedSuffixes source o e' us (vs ++ rest))
    (reading : Phrase.Reads source suffix (o + width us) x vs rest)
    (same : ∀ s, (x.apply s e').bare = e.bare) :
    ∃ e', ChainedSuffixes source o e' (us ++ vs) rest ∧ e'.bare = e.bare :=
  ⟨_, .tail chained reading, same _⟩

theorem complete_call (complete : Complete source l) (inner : ∀ c ∈ args, Complete source c) :
    Complete source (.call i l args is) := by
  refine complete_of_base rfl fun ts rest spelled _ _ o holds => ?_
  obtain ⟨gs, parts, ⟨gs, rfl, listed⟩, level, -, children, weave⟩ := spelled.parts
  obtain ⟨us, vs, parts, rfl, exprs, rfl, callee, weave⟩ := weave.next children
  rw [List.nil_append, List.append_assoc] at holds
  have opens : ∃ t vs', vs = t :: vs' ∧ t.kind = .mark .openParen := by
    rcases listed with ⟨-, listed⟩ | ⟨-, listed⟩ <;>
      obtain ⟨t, g, gs, rfl, kind⟩ := listed.starts <;>
      obtain ⟨vs', rfl⟩ := Weave.cons weave <;> exact ⟨t, vs', rfl, kind⟩
  obtain ⟨e', chained, same⟩ := complete.base level us (vs ++ rest) callee
    (by obtain ⟨t, vs', rfl, kind⟩ := opens; exact marked_cons kind _)
    (by obtain ⟨t, vs', rfl, kind⟩ := opens; exact fun _ _ => ends_of_mark kind (by decide) (by decide) _)
    o holds
  have behind := holds.right
  rw [List.nil_append]
  rcases listed with ⟨rfl, listed⟩ | ⟨-, listed⟩
  · obtain ⟨a, ws, b, es, rfl, kind, kind', reading, bares⟩ :=
      finds_parens inner listed weave exprs behind
    refine finds_suffix (x := .call es []) chained (Rule.reads_orElse.2 (.inl ?_)) fun s => ?_
    · refine Rule.reads_between.2 ⟨a, ws, b, rfl, kind, kind', Rule.reads_orElse.2 (.inr ⟨?_, es, rfl, reading⟩)⟩
      refine Rule.fails_fmap.2 (Rule.fails_between_of (no_brace kind' ?_ reading))
      simpa using behind.tail
    · simp [Suffix.apply, Expr.bare, same, Expr.bares_eq, bares, untyped, Info.bare]
  · obtain ⟨a, ws, b, ps, rfl, kind, kind', reading, bares, named⟩ :=
      finds_braces inner listed weave exprs behind
    refine finds_suffix (x := .call (ps.map Prod.snd) (ps.map Prod.fst)) chained
      (Rule.reads_orElse.2 (.inl ?_)) fun s => ?_
    · exact Rule.reads_between.2 ⟨a, ws, b, rfl, kind, kind', Rule.reads_orElse.2 (.inl ⟨ps, rfl, reading⟩)⟩
    · simp only [Suffix.apply, Expr.bare, same, Expr.bares_eq, bares, named, untyped, Info.bare]

theorem fails_callSuffix (kind : t.kind = .mark m) (other : m ≠ .openParen) :
    Phrase.Fails source callSuffix o (t :: ts) :=
  Rule.fails_between_of (head_ne kind fun same => other (Kind.mark.inj same))

theorem fails_memberSuffix (kind : t.kind = .mark m) (other : m ≠ .dot) :
    Phrase.Fails source (Suffix.member <$> (mark .dot *> ident)) o (t :: ts) :=
  Rule.fails_fmap.2 (Rule.fails_single.2 (.inl (head_ne kind fun same => other (Kind.mark.inj same))))

theorem fails_indexSuffix (kind : t.kind = .mark m) (other : m ≠ .openBracket) :
    Phrase.Fails source (Suffix.index <$> brackets (.optional expression)) o (t :: ts) :=
  Rule.fails_fmap.2 (Rule.fails_between_of (head_ne kind fun same => other (Kind.mark.inj same)))

theorem complete_member {name' : Ident} (complete : Complete source l) :
    Complete source (.member i l name') := by
  refine complete_of_base rfl fun ts rest spelled _ _ o holds => ?_
  obtain ⟨gs, parts, ⟨d, u, rfl, dot, kind, text⟩, ⟨level, other⟩, -, children, weave⟩ := spelled.parts
  obtain ⟨us, vs, parts, rfl, exprs, rfl, base, weave⟩ := weave.next children
  obtain ⟨-, rfl⟩ := weave.only
  rw [List.nil_append, List.append_assoc] at holds
  have ends : ∀ type, l.created? = some type → type.Ends ([d, u] ++ rest) := by
    rintro type created
    refine ⟨?_, ?_, ?_⟩
    · rintro a b more same opens
      cases same
      cases dot.symm.trans opens
    · rintro a n b more same opens
      cases same
      cases dot.symm.trans opens
    · rintro s p rfl
      exact absurd created (other s p)
  obtain ⟨e', chained, same⟩ := complete.base level us ([d, u] ++ rest) base (marked_cons dot _) ends o holds
  have reading : Phrase.Reads source suffix (o + width us)
      (.member ⟨String.ofList u.chars, (u.lexeme (o + width us + width [d])).span⟩) [d, u] rest := by
    refine Rule.reads_orElse.2 (.inr ⟨fails_callSuffix dot (by decide), Rule.reads_orElse.2 (.inl ?_)⟩)
    refine Rule.reads_fmap.2 ⟨_, rfl, Rule.reads_single.2 ⟨d, [u], rfl, dot, ?_⟩⟩
    exact reads_ident.2 ⟨u, rfl, kind, rfl⟩
  refine finds_suffix chained reading fun s => ?_
  simp only [Suffix.apply, Expr.bare, same, Ident.bare, text, untyped, Info.bare]

theorem reads_indexSuffix {a : Spaced} {x : Suffix} (opens : a.kind = .mark .openBracket)
    (h : Phrase.Reads source (Suffix.index <$> brackets (.optional expression)) o x (a :: ts) rest) :
    Phrase.Reads source suffix o x (a :: ts) rest := by
  refine Rule.reads_orElse.2 (.inr ⟨fails_callSuffix opens (by decide), ?_⟩)
  refine Rule.reads_orElse.2 (.inr ⟨fails_memberSuffix opens (by decide), ?_⟩)
  exact Rule.reads_orElse.2 (.inl h)

theorem complete_slice (complete : Complete source l) : Complete source (.index i l none) := by
  refine complete_of_base rfl fun ts rest spelled _ _ o holds => ?_
  obtain ⟨gs, parts, ⟨g, rfl, kinds⟩, ⟨level, plain⟩, -, children, weave⟩ := spelled.parts
  obtain ⟨us, vs, parts, rfl, exprs, rfl, base, weave⟩ := weave.next children
  obtain ⟨-, rfl⟩ := weave.only
  obtain ⟨a, _, rfl, opens, kinds⟩ := List.map_eq_cons_iff.1 kinds
  obtain ⟨b, _, rfl, closes, empty⟩ := List.map_eq_cons_iff.1 kinds
  obtain rfl := List.map_eq_nil_iff.1 empty
  rw [List.nil_append, List.append_assoc] at holds
  obtain ⟨e', chained, same⟩ := complete.base level us ([a, b] ++ rest) base (marked_cons opens _)
    (by simp [plain]) o holds
  have behind : Holds source (o + width us + width [a]) (b :: rest) := holds.right.tail
  refine finds_suffix (x := .index none) chained (reads_indexSuffix opens (Rule.reads_fmap.2 ⟨none, rfl, ?_⟩))
    fun s => by simp only [Suffix.apply, Expr.bare, same, untyped, Info.bare]
  refine Rule.reads_between.2 ⟨a, [], b, rfl, opens, closes, Rule.reads_optional.2 (.inr ⟨rfl, rfl, ?_⟩)⟩
  exact fails_expression behind (closes_cons closes rfl _)

/-- A type before an index ends there, unless the index is a number alone. -/
theorem ends_before_index {type : TypeName} {a b : Spaced} (spelled : r.Spelled us)
    (opens : a.kind = .mark .openBracket) (apart : ∀ n, us = [n] → n.kind ≠ .number) :
    type.Ends (a :: us ++ b :: rest) := by
  obtain ⟨u, us, rfl⟩ := List.exists_cons_of_ne_nil spelled.ne_nil
  have starts := spelled.starts
  refine ⟨?_, ?_, ?_⟩
  · rintro a' b' more same - brackets
    cases same
    exact Bool.false_ne_true (starts.opens _ brackets)
  · rintro a' n b' more same - number brackets
    cases us with
    | nil =>
        cases same
        exact apart _ rfl number
    | cons v us =>
        cases same
        exact starts.unclosed number _ rfl brackets
  · rintro s p - d n more same dot
    cases same
    cases opens.symm.trans dot

theorem complete_index (complete : Complete source l) (complete' : Complete source r) :
    Complete source (.index i l (some r)) := by
  refine complete_of_base rfl fun ts rest spelled _ _ o holds => ?_
  obtain ⟨gs, parts, ⟨a, b, rfl, opens, closes⟩, level, apart, children, weave⟩ := spelled.parts
  obtain ⟨us, vs, parts, rfl, exprs, rfl, base, weave⟩ := weave.next children
  obtain ⟨ws, vs, parts, rfl, exprs, rfl, index, weave⟩ := weave.next exprs
  obtain ⟨rfl, rfl⟩ := weave.only
  rw [show [] ++ us ++ ([a] ++ ws ++ [b]) ++ rest = us ++ (a :: ws ++ b :: rest) by simp] at holds
  have ends : ∀ type, l.created? = some type → type.Ends (a :: ws ++ b :: rest) := by
    intro type created
    refine ends_before_index index opens fun n same => ?_
    refine (apart.resolve_left (by simp [created])) us n ?_
    simp [same]
  obtain ⟨e', chained, same⟩ := complete.base level us _ base (marked_cons opens _) ends o holds
  have behind : Holds source (o + width us + width [a]) (ws ++ b :: rest) := holds.right.tail
  obtain ⟨k', reading, same'⟩ := complete'.whole ws (b :: rest) index
    (follow_cons closes (by decide) rest) _ behind
  have suffixed : Phrase.Reads source suffix (o + width us) (.index (some k')) (a :: ws ++ [b]) rest := by
    refine reads_indexSuffix opens (Rule.reads_fmap.2 ⟨some k', rfl, ?_⟩)
    refine Rule.reads_between.2 ⟨a, ws, b, rfl, opens, closes, ?_⟩
    exact Rule.reads_optional.2 (.inl ⟨k', rfl, reading⟩)
  have found : ∃ e', ChainedSuffixes source o e' (us ++ (a :: ws ++ [b])) rest ∧
      e'.bare = (Expr.index i l (some r)).bare :=
    finds_suffix (by simpa using chained) suffixed fun s => by
      simp only [Suffix.apply, Expr.bare, same, same', untyped, Info.bare]
  simpa using found

theorem complete_step {op : UnaryOp} (complete : Complete source l) :
    Complete source (.unary i op .after l) := by
  refine complete_of_base rfl fun ts rest spelled _ _ o holds => ?_
  obtain ⟨gs, parts, ⟨t, rfl, kind, step⟩, level, -, children, weave⟩ := spelled.parts
  obtain ⟨us, vs, parts, rfl, exprs, rfl, base, weave⟩ := weave.next children
  obtain ⟨-, rfl⟩ := weave.only
  rw [List.nil_append, List.append_assoc] at holds
  obtain ⟨m, mark, paren, dot, bracket⟩ : ∃ m, op.kind = .mark m ∧ m ≠ .openParen ∧ m ≠ .dot ∧
      m ≠ .openBracket := by
    rcases step with rfl | rfl
    · exact ⟨.plusPlus, rfl, by decide⟩
    · exact ⟨.minusMinus, rfl, by decide⟩
  have kind' := kind.trans mark
  obtain ⟨e', chained, same⟩ := complete.base level us ([t] ++ rest) base (marked_cons kind' _)
    (fun _ _ => ends_of_mark kind' bracket dot _) o holds
  have reading : Phrase.Reads source suffix (o + width us) (.step op) [t] rest := by
    refine Rule.reads_orElse.2 (.inr ⟨fails_callSuffix kind' paren, ?_⟩)
    refine Rule.reads_orElse.2 (.inr ⟨fails_memberSuffix kind' dot, ?_⟩)
    refine Rule.reads_orElse.2 (.inr ⟨fails_indexSuffix kind' bracket, ?_⟩)
    refine Rule.reads_oneOf.2 ⟨t, rfl, ?_⟩
    rcases step with rfl | rfl <;> rw [kind] <;> rfl
  exact finds_suffix chained reading fun s => by
    simp only [Suffix.apply, Expr.bare, same, untyped, Info.bare]

theorem reads_unaryOperator {op : UnaryOp} (kind : t.kind = op.kind) :
    Phrase.Reads source unaryOperator o op [t] rest := by
  cases op with
  | delete =>
      have keyword : t.kind = .keyword .delete := kind
      refine Rule.reads_orElse.2 (.inr ⟨fails_markOf fun u head p _ => ?_, ?_⟩)
      · exact head_ne keyword (show Kind.keyword .delete ≠ .mark p.1 from nofun) u head
      exact Rule.reads_fmap.2 ⟨t.lexeme o, rfl, t, rfl, kind, rfl⟩
  | _ => exact Rule.reads_orElse.2 (.inl (Rule.reads_oneOf.2 ⟨t, rfl, by rw [kind]; rfl⟩))

theorem complete_prefix {op : UnaryOp} (complete : Complete source l) :
    Complete source (.unary i op .before l) := by
  refine complete_of_level (show 1 ≤ 12 by decide) ?_ (fun level => absurd level (Nat.succ_ne_zero 0))
    fun k _ _ same => absurd (Nat.succ.inj same) (Nat.succ_ne_zero k).symm
  intro ts rest spelled follow o holds
  obtain ⟨gs, parts, ⟨t, rfl, kind⟩, level, -, children, weave⟩ := spelled.parts
  obtain ⟨us, vs, parts, rfl, exprs, rfl, operand', weave⟩ := weave.next children
  obtain ⟨-, rfl⟩ := weave.only
  have split : [t] ++ us ++ [] ++ rest = [t] ++ (us ++ rest) := by simp
  obtain ⟨e', reading, same⟩ := complete.tight 1 (by decide) level us rest operand' follow
    (o + width [t]) (split ▸ holds).right
  have whole : Phrase.Reads source operandRule o (.unary (untyped (extent o (t :: us))) op .before e')
      (t :: us) rest := by
    refine Rule.reads_orElse.2 (.inl (Rule.reads_located.2 ⟨(op, e'), rfl, [t], us, rfl, ?_, reading⟩))
    exact reads_unaryOperator kind
  refine ⟨.unary (untyped (extent o (t :: us))) op .before e', ?_, ?_⟩
  · have read := Symbol.reads_of_rule (n := .operand) (by simpa using holds) whole
    rw [List.append_nil]
    exact read
  · simp only [Expr.bare, same, Info.bare]

theorem reads_level {level : Level} {op : BinaryOp} (found : levels[k]? = some level)
    (number : op.level = k + 2) (kind : t.kind = .mark op.mark) :
    Phrase.Reads source (markOf level.1 level.2) o op [t] rest := by
  refine Rule.reads_oneOf.2 ⟨t, rfl, ?_⟩
  rw [kind]
  obtain rfl : k = op.level - 2 := by omega
  cases op <;> cases found <;> rfl

theorem complete_binary {op : BinaryOp} (complete : Complete source l) (complete' : Complete source r) :
    Complete source (.binary i op l r) := by
  have run : ∀ k level, levels[k]? = some level → op.level = k + 2 → ∀ ts rest,
      (Expr.binary i op l r).Spelled ts → Follow (k + 1) rest →
      Finds source (ChainedOperands source k level) (.binary i op l r) ts rest := by
    intro k level found number ts rest spelled follow o holds
    obtain ⟨gs, parts, ⟨t, rfl, kind⟩, fits, -, children, weave⟩ := spelled.parts
    obtain ⟨us, vs, rfl, left, right⟩ := weave.infix children
    have lt : k < levels.length := (List.getElem?_eq_some_iff.1 found).1
    have lt : k < 11 := lt
    have tighter : l.level ≤ k + 2 ∧ r.level ≤ k + 1 := by
      have := fits.1
      have := fits.2
      omega
    rw [List.append_assoc, List.append_assoc] at holds
    obtain ⟨l', chained, same⟩ := complete.run k level found tighter.1 us _ left
      (follow_cons kind (by rw [BinaryOp.reach_mark]; omega) _) o holds
    obtain ⟨r', reading, same'⟩ := complete'.tight (k + 1) (by omega) tighter.2 vs rest right follow
      (o + width us + width [t]) holds.right.right
    have tail : Phrase.Reads source (.seq (markOf level.1 level.2) (tier k)) (o + width us) (op, r')
        ([t] ++ vs) rest := ⟨[t], vs, rfl, reads_level found number kind, reading⟩
    refine ⟨_, .tail (b := (op, r')) chained tail, ?_⟩
    simp only [Expr.bare, same, same', Info.bare]
  have bounds : 2 ≤ op.level ∧ op.level ≤ 12 := by cases op <;> decide
  refine complete_of_level bounds.2 ?_ (fun level => ?_) run
  · intro ts rest spelled follow o holds
    obtain ⟨level, found⟩ := exists_level (show op.level - 2 < 11 by omega)
    have number : op.level = op.level - 2 + 2 := by omega
    obtain ⟨e', chained, same⟩ := run (op.level - 2) level found number ts rest spelled
      (follow.mono (show op.level - 2 + 1 ≤ op.level by omega)) o holds
    refine ⟨e', ?_, same⟩
    show Phrase.Reads source (phraseOf op.level) o e' ts rest
    have follow : Follow op.level rest := follow
    rw [number] at follow ⊢
    show Phrase.Reads source (tier (op.level - 2 + 1)) o e' ts rest
    rw [tier_succ found]
    exact chained.reads (fails_level found follow)
  · have level : op.level = 0 := level
    omega

/-- What is a condition or an assignment is found as a whole alone. -/
theorem complete_of_whole (loose : 12 < e.level)
    (whole : ∀ ts rest, e.Spelled ts → Follow 14 rest →
      Finds source (Phrase.Reads source expression) e ts rest) : Complete source e := by
  refine ⟨fun level => by omega, fun k level found le => ?_, fun n bound le => by omega, whole⟩
  have lt : k < levels.length := (List.getElem?_eq_some_iff.1 found).1
  have lt : k < 11 := lt
  omega

theorem complete_conditional {c t f : Expr α} (complete : Complete source c)
    (complete' : Complete source t) (complete'' : Complete source f) :
    Complete source (.conditional i c t f) := by
  refine complete_of_whole (show 12 < 13 by decide) ?_
  intro ts rest spelled follow o holds
  obtain ⟨gs, parts, ⟨a, b, rfl, question, colon⟩, tight, -, children, weave⟩ := spelled.parts
  obtain ⟨us, _, parts, rfl, exprs, rfl, first, weave⟩ := weave.next children
  obtain ⟨vs, _, parts, rfl, exprs, rfl, second, weave⟩ := weave.next exprs
  obtain ⟨ws, _, parts, rfl, exprs, rfl, third, weave⟩ := weave.next exprs
  obtain ⟨-, rfl⟩ := weave.only
  have split : [] ++ us ++ ([a] ++ vs ++ ([b] ++ ws ++ [])) ++ rest =
      us ++ ([a] ++ (vs ++ ([b] ++ (ws ++ rest)))) := by simp
  rw [split] at holds
  have behind := holds.right.right
  obtain ⟨c', reading, same⟩ := complete.tight 12 (Nat.le_refl 12) tight us _ first
    (follow_cons question (by decide) _) o holds
  obtain ⟨t', reading', same'⟩ := complete'.whole vs _ second (follow_cons colon (by decide) _) _ behind
  obtain ⟨f', reading'', same''⟩ := complete''.whole ws rest third follow _ behind.right.right
  have branches : Phrase.Reads source conditional o
      (.conditional (untyped (extent o (us ++ (a :: vs ++ b :: ws)))) c' t' f')
      (us ++ (a :: vs ++ b :: ws)) rest := by
    refine Rule.reads_located.2 ⟨(c', some (t', f')), rfl, us, a :: vs ++ b :: ws, rfl, ?_, ?_⟩
    · show Phrase.Reads source (phraseOf 12) o c' us _
      simpa using reading
    · refine Rule.reads_optional.2 (.inl ⟨(t', f'), rfl, a :: vs, b :: ws, rfl, ?_, ?_⟩)
      · exact Rule.reads_single.2 ⟨a, vs, rfl, question, by simpa using reading'⟩
      · refine Rule.reads_single.2 ⟨b, ws, rfl, colon, ?_⟩
        simpa [Token.width_cons, Nat.add_assoc] using reading''
  have whole : Phrase.Reads source expressionRule o
      (.conditional (untyped (extent o (us ++ (a :: vs ++ b :: ws)))) c' t' f')
      (us ++ (a :: vs ++ b :: ws)) rest := by
    refine Rule.reads_located.2 ⟨(_, none), rfl, _, [], (List.append_nil _).symm, branches, ?_⟩
    exact Rule.reads_optional.2 (.inr ⟨rfl, rfl, fails_assignment follow⟩)
  refine ⟨.conditional (untyped (extent o (us ++ (a :: vs ++ b :: ws)))) c' t' f', ?_, ?_⟩
  · have read : Phrase.Reads source expression o _ _ rest :=
      Symbol.reads_of_rule (n := .expression) (by simpa using holds) whole
    simpa using read
  · simp only [Expr.bare, same, same', same'', Info.bare]

theorem reads_assignOperator {op : AssignOp} (kind : t.kind = .mark op.mark) :
    Phrase.Reads source assignOperator o op [t] rest :=
  Rule.reads_oneOf.2 ⟨t, rfl, by rw [kind]; cases op <;> rfl⟩

theorem complete_assign {op : AssignOp} (complete : Complete source l) (complete' : Complete source r) :
    Complete source (.assign i op l r) := by
  refine complete_of_whole (show 12 < 14 by decide) ?_
  intro ts rest spelled follow o holds
  obtain ⟨gs, parts, ⟨t, rfl, kind⟩, tight, -, children, weave⟩ := spelled.parts
  obtain ⟨us, vs, rfl, left, right⟩ := weave.infix children
  rw [List.append_assoc, List.append_assoc] at holds
  have assigns : Follow 13 ([t] ++ (vs ++ rest)) := follow_cons kind (by rw [AssignOp.reach_mark]; decide) _
  obtain ⟨l', reading, same⟩ := complete.tight 12 (Nat.le_refl 12) tight us _ left
    (assigns.mono (by decide)) o holds
  obtain ⟨r', reading', same'⟩ := complete'.whole vs rest right follow _ holds.right.right
  have branches : Phrase.Reads source conditional o l' us ([t] ++ vs ++ rest) := by
    refine Rule.reads_located.2 ⟨(l', none), rfl, us, [], (List.append_nil us).symm, ?_, ?_⟩
    · show Phrase.Reads source (phraseOf 12) o l' us _
      simpa using reading
    · exact Rule.reads_optional.2 (.inr ⟨rfl, rfl, fails_branches (by simpa using assigns)⟩)
  have whole : Phrase.Reads source expressionRule o (.assign (untyped (extent o (us ++ ([t] ++ vs)))) op l' r')
      (us ++ ([t] ++ vs)) rest := by
    refine Rule.reads_located.2 ⟨(l', some (op, r')), rfl, us, [t] ++ vs, rfl, branches, ?_⟩
    refine Rule.reads_optional.2 (.inl ⟨(op, r'), rfl, [t], vs, rfl, ?_, reading'⟩)
    exact reads_assignOperator kind
  refine ⟨.assign (untyped (extent o (us ++ ([t] ++ vs)))) op l' r', ?_, ?_⟩
  · exact Symbol.reads_of_rule (n := .expression) (by simpa using holds) whole
  · simp only [Expr.bare, same, same', Info.bare]

/-- Every expression is complete once its parts are. -/
theorem complete (e : Expr α) : Complete source e := by
  induction e using Expr.induction_children with
  | node e ih =>
      cases e with
      | identifier i n => exact complete_of_atom rfl fun ts rest spelled _ _ => finds_identifier spelled
      | number i s => exact complete_of_atom rfl fun ts rest spelled marked _ => finds_number spelled marked
      | string i s => exact complete_of_atom rfl fun ts rest spelled _ _ => finds_string spelled
      | bool i b => exact complete_of_atom rfl fun ts rest spelled _ _ => finds_bool spelled
      | elementary i type => exact complete_of_atom rfl fun ts rest spelled _ _ => finds_elementary spelled
      | new i type =>
          exact complete_of_atom rfl fun ts rest spelled marked ends =>
            finds_new spelled marked (ends type rfl)
      | binary i op l r => exact complete_binary (ih l (by simp [Expr.children])) (ih r (by simp [Expr.children]))
      | assign i op l r => exact complete_assign (ih l (by simp [Expr.children])) (ih r (by simp [Expr.children]))
      | unary i op fixity e =>
          cases fixity with
          | before => exact complete_prefix (ih e (by simp [Expr.children]))
          | after => exact complete_step (ih e (by simp [Expr.children]))
      | call i callee args names =>
          exact complete_call (ih callee (by simp [Expr.children])) fun a member =>
            ih a (List.mem_cons_of_mem callee member)
      | member i base m => exact complete_member (ih base (by simp [Expr.children]))
      | index i base k =>
          cases k with
          | none => exact complete_slice (ih base (by simp [Expr.children]))
          | some k => exact complete_index (ih base (by simp [Expr.children])) (ih k (by simp [Expr.children]))
      | conditional i c t f =>
          exact complete_conditional (ih c (by simp [Expr.children])) (ih t (by simp [Expr.children]))
            (ih f (by simp [Expr.children]))
      | tuple i es => exact complete_tuple ih

end Nodes

/-- A text whose tokens spell an expression is read as that expression. -/
theorem readAll_of_spelled {ts : List Spaced} (spelled : e.Spelled ts) :
    ∃ e' : Expr Unit,
      expression.readAll (.start (Token.textOf ts) (Token.lexemes 0 ts)) = .ok e' ∧ e'.bare = e.bare := by
  have holds : Holds (Token.textOf ts) 0 (ts ++ []) := ⟨[], [], by simp, rfl⟩
  obtain ⟨e', reading, same⟩ := (complete e).whole ts [] spelled (follow_nil 14) 0 holds
  refine ⟨e', (readAll_iff (by rfl)).2 ?_, same⟩
  have found := (decides (r := expression) (by rfl)).reads holds reading
  simpa [Token.lexemes] using found

end Grammar.Phrase
end SafeSubset
