import SafeSubset.Proofs.Grammar.Names
import SafeSubset.Proofs.Grammar.Spelled
import SafeSubset.Proofs.Types.Elementary

/-! Where a file has elementary types: at the words that name one, and nowhere else.
Such a word is a keyword of the language or one with zeros before its numeral. -/
namespace SafeSubset

open Token (Kind Lexeme Spaced lexemes isWordRest)

/-- The word that starts at an offset names the type, perhaps with zeros before its numeral. -/
def Source.Names (source : Source) (start : Nat) (t : Ty) : Prop :=
  ∃ l ∈ (Token.scan source).lexemes, l.kind = .identifier ∧ l.span.start = start ∧
    ∃ zeros, Ty.Spells (String.ofList (List.replicate zeros '0')) l.text t

variable {source : Source} {u : SourceUnit Unit} {s : Span} {t : Ty} {i : Info Unit} {o start : Nat}
  {ts : List Spaced}

/-- A word has no plus sign, so nothing but zeros stands before a numeral in it. -/
theorem Source.names_of_word {w : Spaced} (among : w.lexeme o ∈ (Token.scan source).lexemes)
    (kind : w.kind = .identifier) (place : (w.lexeme o).span.start = start)
    (named : Ty.ofName? (String.ofList w.chars) = some t) : source.Names start t := by
  refine ⟨w.lexeme o, among, kind, place, ?_⟩
  have token : (w.lexeme o).kind = .identifier := kind
  have spelled := source.spells_of_lexeme among
  rw [token] at spelled
  obtain ⟨lead, ⟨zeros, zero | plus⟩, spells⟩ := Ty.ofName_eq_some_iff.1 named
  · refine ⟨zeros, ?_⟩
    rw [← zero, String.ofList_toList]
    exact spells
  · rcases spells.elim with any | ⟨word, n, -, same⟩
    · exact ⟨0, any _⟩
    · have sign : '+' ∈ (String.ofList w.chars).toList := by simp [same, plus]
      exact absurd (spelled.rest '+' sign) (by decide)

theorem Source.names_of_written {o : Nat} {ts : List Spaced} (among : lexemes o ts <:+: (Token.scan source).lexemes)
    (first : (lexemes o ts).head?.map (·.span.start) = some start)
    (written : (TypeName.elementary s t).Written ts) : source.Names start t := by
  cases written with
  | elementary kind named | payable kind named _ =>
      exact source.names_of_word (among.subset List.mem_cons_self) kind (Option.some.inj first) named

/-- The only token of an expression without parts. -/
theorem Expr.Located.token {e : Expr Unit} (h : e.Located o ts) {P : Spaced → Prop}
    (leaf : ∀ gs, e.Groups gs → ∃ w, gs = [[w]] ∧ P w) : ∃ w, ts = [w] ∧ P w := by
  obtain ⟨gs, parts, groups, -, -, -, -, weave⟩ := h
  obtain ⟨w, rfl, holds⟩ := leaf gs groups
  exact ⟨w, weave.only.2, holds⟩

/-- The names of the elementary types. A word names one if and only if it is a keyword for
it, but that a plus sign and zeros may stand before the numeral; a word is taken as a keyword
or not at all if and only if it has none there. Two keywords name one type only as the
second name and the first. In a file elementary types stand at the words that name them,
which have no plus sign, or at `payable` for an address; no other name of a type or a value
is such a word. -/
theorem elementary_names (w : String) (read : source.parse.unit = .ok u) :
    (∀ t, Ty.ofName? w = some t ↔ ∃ lead, IsLead lead ∧ Ty.Spells lead w t) ∧
      ((∀ t, Ty.ofName? w = some t ↔ Ty.Keyword w t) ↔
        ∀ word n t lead, Ty.Sized word n t → IsLead lead → w = word ++ lead ++ toString n → lead = "") ∧
      (∀ w' t, Ty.Keyword w t → Ty.Keyword w' t → w = w' ∨ Ty.Alias w w' ∨ Ty.Alias w' w) ∧
      (∀ s t, u.Has (.typeName (.elementary s t)) → source.Names s.start t) ∧
      (∀ i t, u.Has (.expr (.elementary i t)) → source.Names i.span.start t ∨ t = .address ∧
        ∃ l ∈ (Token.scan source).lexemes, l.kind = .keyword .payable ∧ l.span.start = i.span.start) ∧
      (∀ s p, u.Has (.typeName (.user s p)) → ∀ c ∈ p.components.head?, Ty.ofName? c.text = none) ∧
      ∀ i n, u.Has (.expr (.identifier i n)) → Ty.ofName? n = none := by
  obtain ⟨places, -⟩ := spans_of_parse read
  refine ⟨fun _ => Ty.ofName_eq_some_iff, ⟨?_, ?_⟩, fun _ _ => Ty.Keyword.alias, ?_, ?_, ?_, ?_⟩
  · rintro only word n t lead sized isLead rfl
    by_contra some
    have named := Ty.ofName_eq_some_iff.2 ⟨lead, isLead, .sized sized⟩
    exact Ty.not_keyword_of_lead sized isLead some ((only t).1 named)
  · intro plain t
    refine ⟨fun named => ?_, Ty.Keyword.named⟩
    obtain ⟨lead, isLead, spells⟩ := Ty.ofName_eq_some_iff.1 named
    rcases spells.elim with any | ⟨word, n, sized, same⟩
    · exact any ""
    · rwa [plain word n t lead sized isLead same] at spells
  · intro s t stands
    obtain ⟨o, ts, written, among, first, -⟩ := (places _ stands).tokens
    exact source.names_of_written among first written
  · intro i t stands
    obtain ⟨o, ts, located, among, first, -⟩ := (places _ stands).tokens
    obtain ⟨w, rfl, ⟨kind, named⟩ | ⟨kind, same⟩⟩ := Expr.Located.token located fun _ groups => groups
    · exact .inl (source.names_of_word (among.subset List.mem_cons_self) kind (Option.some.inj first) named)
    · exact .inr ⟨same, _, among.subset List.mem_cons_self, kind, Option.some.inj first⟩
  · intro s p stands c head
    obtain ⟨o, ts, written, -⟩ := (places _ stands).tokens
    cases written with
    | user kind own components dotted =>
        have first := congrArg List.head? components
        rw [List.head?_map, head] at first
        have text : c.text = _ := Option.some.inj first
        rw [text]
        exact own
  · intro i n stands
    obtain ⟨o, ts, located, -⟩ := (places _ stands).tokens
    obtain ⟨w, -, -, -, other⟩ := Expr.Located.token located fun _ groups => groups
    exact other

/-- The types of the state variables of a file and the names of its structures, in source order. -/
def SourceUnit.declared (u : SourceUnit Unit) : List (TypeName ⊕ String) :=
  (u.contracts.flatMap Contract.members).filterMap fun
    | .state v => some (.inl v.type)
    | .struct s => some (.inr s.name.text)
    | _ => none

theorem SourceUnit.has_of_declared {t : TypeName} (member : .inl t ∈ u.declared) : u.Has (.typeName t) := by
  obtain ⟨m, inside, found⟩ := List.mem_filterMap.1 member
  obtain ⟨c, inU, inC⟩ := List.mem_flatMap.1 inside
  cases m with
  | state v =>
      cases found
      have part : Construct.member (.state v) ∈ (Construct.node (.contract c)).parts := by
        simp [Construct.parts, Node.parts, inC]
      exact ⟨_, u.contract_mem_nodes inU, .head part (.single List.mem_cons_self)⟩
  | _ => cases found

/-- A file with an address that can be paid, and with a variable of a type that is no elementary one. -/
def payableAddress : Source := "contract C \x7b address payable a; uint9 b; \x7d".toList

theorem elementary_names_payable : ∃ u, payableAddress.parse.unit = .ok u ∧
    u.declared = [.inl (.elementary ⟨13, 28⟩ .address), .inl (.user ⟨32, 37⟩ ⟨[], ⟨"uint9", ⟨32, 37⟩⟩⟩)] ∧
    payableAddress.Names 13 .address ∧ Ty.ofName? "uint9" = none := by
  have evaluated : payableAddress.parse.unit.toOption.any (fun u => decide (u.declared =
      [.inl (.elementary ⟨13, 28⟩ .address), .inl (.user ⟨32, 37⟩ ⟨[], ⟨"uint9", ⟨32, 37⟩⟩⟩)])) = true := by
    decide +kernel
  obtain ⟨u, read, found⟩ := exists_of_any evaluated
  have found := of_decide_eq_true found
  obtain ⟨-, -, -, elementary, -, user, -⟩ := elementary_names "uint9" read
  refine ⟨u, read, found, ?_, ?_⟩
  · exact elementary ⟨13, 28⟩ .address (u.has_of_declared (by simp [found]))
  · exact user ⟨32, 37⟩ ⟨[], ⟨"uint9", ⟨32, 37⟩⟩⟩ (u.has_of_declared (by simp [found])) _ rfl

/-- A file with a structure and a variable of its type, but that its name is a keyword with a
zero before the numeral. -/
def zeroInName : Source :=
  "contract C \x7b struct uint08 \x7b uint256 f; \x7d uint08 v; \x7d".toList

/-- Not only keywords name elementary types, so a name that a file defines may be taken for one. -/
theorem elementary_names_zero : Ty.ofName? "uint08" = some (.integer (.unsigned 8)) ∧
    (∀ t, ¬ Ty.Keyword "uint08" t) ∧ ∃ u, zeroInName.parse.unit = .ok u ∧
      u.declared = [.inr "uint08", .inl (.elementary ⟨42, 48⟩ (.integer (.unsigned 8)))] := by
  have evaluated : zeroInName.parse.unit.toOption.any (fun u => decide (u.declared =
      [.inr "uint08", .inl (.elementary ⟨42, 48⟩ (.integer (.unsigned 8)))])) = true := by
    decide +kernel
  obtain ⟨u, read, found⟩ := exists_of_any evaluated
  have eight : Ty.Sized "uint" 8 (.integer (.unsigned 8)) := .uint (by decide) (by decide) (by decide)
  refine ⟨by decide +kernel, ?_, u, read, of_decide_eq_true found⟩
  intro t
  have zero : IsLead "0" := ⟨1, .inl (by decide)⟩
  exact Ty.not_keyword_of_lead eight zero (by decide)

end SafeSubset
