import SafeSubset.Proofs.Grammar.File
import SafeSubset.Proofs.Grammar.Nested

/-! How far the expressions of a contract keep from the places where text is put in. A
contract and each of its members start with a token that is in no expression, and the
opening brace stands between the bases and the members. -/
namespace SafeSubset

open Token (Spaced Holds width extent)

/-- The expressions in a contract stand behind its start, those of its bases before the place
where its members start, and those of its members behind it. -/
structure Contract.Clear {α : Type} (c : Contract α) : Prop where
  start : ∀ e ∈ c.roots, c.span.start < e.span.start
  bases : ∀ e ∈ c.bases.flatMap Base.roots, e.span.stop < c.entry
  members : ∀ e ∈ c.members.flatMap Member.roots, c.entry < e.span.start

namespace Contract

variable {α β : Type} {c : Contract α} {d : Contract β}

/-- Whether expressions keep clear depends on where they stand. -/
theorem Clear.congr (clear : c.Clear) (alike : c.Alike d) : d.Clear := by
  have spans : ∀ {es : List (Expr α)} {es' : List (Expr β)}, es.map Expr.forget = es'.map Expr.forget →
      ∀ e' ∈ es', ∃ e ∈ es, e.span = e'.span := by
    intro es es' same e' member
    obtain ⟨e, inside, same⟩ := List.mem_map.1 (same ▸ List.mem_map_of_mem (f := Expr.forget) member)
    exact ⟨e, inside, by rw [← Expr.span_forget e, same, Expr.span_forget]⟩
  obtain ⟨span, entry, -, bases, members⟩ := alike
  refine ⟨?_, ?_, ?_⟩
  · intro e member
    have roots : c.roots.map Expr.forget = d.roots.map Expr.forget := by
      rw [Contract.roots, Contract.roots, List.map_append, List.map_append, bases, members]
    obtain ⟨e', inside, same⟩ := spans roots e member
    rw [← span, ← same]
    exact clear.start e' inside
  · intro e member
    obtain ⟨e', inside, same⟩ := spans bases e member
    rw [← entry, ← same]
    exact clear.bases e' inside
  · intro e member
    obtain ⟨e', inside, same⟩ := spans members e member
    rw [← entry, ← same]
    exact clear.members e' inside

end Contract

/-- What is laid out among tokens starts and stops among them. -/
theorem Laid.within {α : Type} {o : Nat} {es : List (Expr α)} {ts : List Spaced}
    (laid : Laid Expr.Located o es ts) {e : Expr α} (member : e ∈ es) :
    o ≤ e.span.start ∧ e.span.stop ≤ o + width ts := by
  have arranged := laid.arranged fun o (e : Expr α) us (h : e.Located o us) => h.span
  obtain ⟨from_le, -, -, stop⟩ := arranged.bounds (List.mem_map_of_mem member)
  exact ⟨Nat.le_trans (Token.le_extent o ts) from_le, stop⟩

namespace Grammar.Phrase

variable {call : (n : Symbol) → Meaning n.Value} {α β : Type}

/-- The expressions that `f` finds in what a phrase reads start behind its first token. -/
structure Trails (call : (n : Symbol) → Meaning n.Value) (r : Phrase α) (f : α → List (Expr Unit)) :
    Prop where
  behind : ∀ {o a ts rest}, (Rule.meaning call r).reads o a ts rest →
    ∀ e ∈ f a, (extent o ts).start < e.span.start

section Combinators

variable {r : Phrase α} {s : Phrase β} {f : α → List (Expr Unit)} {g : β → List (Expr Unit)}

theorem Trails.silent : Trails call r fun _ => [] := ⟨fun _ _ member => nomatch member⟩

theorem Trails.seq (calls : ∀ {n o a ts rest}, (call n).reads o a ts rest → ts ≠ [])
    (takes : r.consumes) (lays : Lays call Expr.Located s g) : Trails call (.seq r s) fun p => g p.2 where
  behind := by
    rintro o ⟨a, b⟩ _ rest ⟨us, vs, rfl, reading, reading'⟩ e member
    have some := Rule.taken_ne_nil calls takes reading
    have first := Token.extent_lt o some
    have stop := Token.extent_stop o us
    have behind := ((lays.laid reading').within member).1
    rw [Token.extent_append o some]
    show (extent o us).start < _
    omega

theorem Trails.located {build : Span → α → β} (trails : Trails call r f)
    (same : ∀ s a, g (build s a) = f a) : Trails call (Rule.located build r) g where
  behind := by
    intro o b ts rest h
    obtain ⟨a, rfl, reading⟩ := Rule.reads_located.1 h
    rw [same]
    exact trails.behind reading

theorem Trails.orElse {s : Phrase α} (first : Trails call r f) (second : Trails call s f) :
    Trails call (r <|> s) f where
  behind := by
    intro o a ts rest reading
    rcases Rule.reads_orElse.1 reading with h | ⟨-, h⟩
    · exact first.behind h
    · exact second.behind h

end Combinators

section Contracts

variable (calls : ∀ {n o a ts rest}, (call n).reads o a ts rest → ts ≠ [])
  (expressions : Lays call Expr.Located expression fun e => [e])
  (statements : Lays call Expr.Located statement Stmt.roots)

include calls expressions statements

/-- A member starts with a token that is in none of its expressions. -/
theorem trails_member : Trails call member Member.roots := by
  refine .orElse (.located (.seq calls (by rfl) (lays_functionRest expressions statements))
    fun s p => roots_function p.1 s p.2) ?_
  refine .orElse (.located (.seq calls (by rfl) (.seq .silent (lays_block statements)))
    fun _ _ => by simp [Member.roots]) ?_
  refine .orElse (.located .silent fun _ _ => rfl) ?_
  refine .orElse (.located .silent fun _ _ => rfl) ?_
  refine .orElse (.located .silent fun _ _ => rfl) ?_
  refine .orElse (.located .silent fun _ _ => rfl) ?_
  exact .located (.seq calls (by rfl) (.seq .silent (.left (lays_initializer expressions)))) fun _ _ => by
    simp [Member.roots]

/-- The expressions of members that follow one another start behind the first token. -/
theorem trails_members {o : Nat} {m : Member Unit} {ms : List (Member Unit)} {ts rest : List Spaced}
    (h : (Rule.meaning call (.many member)).reads o (m :: ms) ts rest) :
    ∀ e ∈ (m :: ms).flatMap Member.roots, m.span.start < e.span.start := by
  obtain ⟨us, vs, rfl, reading, others⟩ := h
  have some := Rule.taken_ne_nil calls (by rfl) reading
  intro e member
  rw [span_member reading]
  rcases List.mem_append.1 (List.flatMap_cons ▸ member) with member | member
  · exact (trails_member calls expressions statements).behind reading e member
  · have laid := (Lays.many (lays_member expressions statements)).laid others
    have behind := (laid.within member).1
    have first := Token.extent_lt o some
    have stop := Token.extent_stop o us
    omega

/-- The expressions of a contract keep clear of its start and of where its members start. -/
theorem clear_contract {o : Nat} {n : Node Unit} {ts rest : List Spaced}
    (h : (Rule.meaning call contract).reads o n ts rest) : ∃ c, n = .contract c ∧ c.Clear := by
  obtain ⟨⟨kind, name, bases, members⟩, rfl, ks, _, rfl, word, ns, _, rfl, -, bs, _, rfl, hbases,
    body⟩ := Rule.reads_located.1 h
  obtain ⟨a, ms, b, rfl, -, -, hmembers⟩ := Rule.reads_between.1 body
  have some := Rule.taken_ne_nil calls (by rfl) word
  have first := Token.extent_lt o some
  have stop := Token.extent_stop o ks
  have brace := Token.width_pos (List.cons_ne_nil a [])
  have last := Token.width_pos (List.cons_ne_nil b [])
  have inBases : ∀ e ∈ (bases.getD []).flatMap Base.roots, _ := fun e member =>
    ((lays_bases expressions).laid hbases).within member
  have inMembers : ∀ e ∈ members.flatMap Member.roots, _ := fun e member =>
    ((Lays.many (lays_member expressions statements)).laid hmembers).within member
  refine ⟨_, rfl, ?_, ?_, ?_⟩
  · intro e member
    rw [Token.extent_append o some]
    show (extent o ks).start < _
    rcases List.mem_append.1 member with member | member
    · have := inBases e member
      omega
    · have := inMembers e member
      omega
  · intro e member
    have := inBases e member
    cases members with
    | nil =>
        obtain ⟨rfl, -⟩ := hmembers
        simp only [Contract.entry, Token.extent_stop, Token.width_append]
        omega
    | cons m members =>
        obtain ⟨us, vs, rfl, reading, -⟩ := hmembers
        have entry := Token.le_extent (o + width ks + width ns + width bs + width [a]) us
        simp only [Contract.entry, span_member reading]
        omega
  · intro e member
    cases members with
    | nil => cases member
    | cons m members => exact trails_members calls expressions statements hmembers e member

end Contracts

/-- The contracts of a file keep their expressions clear. -/
theorem clear_nodes {source : Source} {ts : List Spaced} {ns : List (Node Unit)}
    (holds : Holds source 0 ts) (h : split source nodes (Token.lexemes 0 ts) =
      some ⟨ns, Token.lexemes 0 ts, []⟩) : ∀ c ∈ ns.flatMap Node.definition, c.Clear := by
  have lays : Lays (Symbol.known source (Sound source)) (fun _ c _ => c.Clear) nodes fun ns =>
      ns.flatMap Node.definition := by
    refine Lays.many (f := Node.definition) (.orElse (.located .silent fun _ _ => rfl)
      (.orElse (.located .silent fun _ _ => rfl) ⟨fun {o n us rest} reading => ?_⟩))
    obtain ⟨c, rfl, clear⟩ := clear_contract known_ne_nil lays_expression lays_statement reading
    exact .single (o := o) clear
  have laid : Laid (fun _ (c : Contract Unit) _ => c.Clear) 0 (ns.flatMap Node.definition) ts :=
    lays.laid (known_of_split sound_rules (r := nodes) (by rfl) holds h)
  exact laid.forall (W := fun _ c _ => c.Clear) (P := Contract.Clear) fun _ _ _ clear => clear

end Grammar.Phrase

theorem clear_alike {α β : Type} {cs : List (Contract α)} {ds : List (Contract β)}
    (alike : List.Forall₂ Contract.Alike cs ds) (clear : ∀ c ∈ cs, c.Clear) : ∀ d ∈ ds, d.Clear := by
  induction alike with
  | nil => simp
  | cons same _ ih =>
      obtain ⟨first, rest⟩ := List.forall_mem_cons.1 clear
      exact List.forall_mem_cons.2 ⟨first.congr same, ih rest⟩

/-- The expressions in an accepted file keep clear of the places where text is put in. -/
theorem Source.front_clear {source : Source} {u : SourceUnit Ty} (accepted : source.front = .ok u) :
    ∀ c ∈ u.contracts, c.Clear := by
  obtain ⟨v, read, faults, rfl⟩ := front_annotate accepted
  obtain ⟨ts, tail, -, found, holds⟩ := Token.scan_faultless faults
  obtain ⟨ns, rfl, split⟩ := split_of_parse read
  rw [found] at split
  have clear := Grammar.Phrase.clear_nodes holds split
  -- Neither numbers nor types move an expression.
  have numbered := clear_alike (alike_numberNodes 0 ns) clear
  rw [← SourceUnit.contracts_eq ⟨numberNodes 0 ns, ⟨0, Source.byteLength source⟩⟩] at numbered
  exact clear_alike (alike_annotate _) numbered

end SafeSubset
