import SafeSubset.Proofs.Grammar.Spans
import SafeSubset.Proofs.Token.Tiling

/-! The names in a file that has been read. Each is a word, and so is the name by which a
function is shown, also where it has none of its own. -/
namespace SafeSubset

open Token (Kind Lexeme Spaced lexemes isWordStart isWordRest)

theorem Token.Kind.Spells.rest {cs : Source} (word : Kind.identifier.Spells cs) :
    ∀ c ∈ cs, isWordRest c := by
  cases word with
  | identifier first rest =>
      intro c member
      rcases List.mem_cons.1 member with rfl | later
      · simp [isWordRest, first]
      · exact rest c later

section Files

variable {source : Source} {u : SourceUnit Unit}

/-- A token of the file is spelled as its kind has it. -/
theorem Source.spells_of_lexeme {l : Lexeme} (member : l ∈ (Token.scan source).lexemes) :
    l.kind.Spells l.text.toList := by
  obtain ⟨after, c, cs, text, -, cut⟩ := Token.cutout_of_lexeme member
  obtain ⟨spells, -⟩ := Token.spells_of_first cut
  rwa [← text] at spells

/-- Every name in a file is a word. -/
theorem Source.spells_of_ident (read : source.parse.unit = .ok u) {i : Ident} (stands : u.Has (.ident i)) :
    Kind.identifier.Spells i.text.toList := by
  obtain ⟨places, -⟩ := spans_of_parse read
  obtain ⟨o, ts, ⟨rest, reading⟩, among, -⟩ := (places _ stands).tokens
  obtain ⟨t, rfl, kind, rfl⟩ := Grammar.Phrase.reads_ident.1 reading
  have member : t.lexeme o ∈ (Token.scan source).lexemes := among.subset List.mem_cons_self
  have token : (t.lexeme o).kind = .identifier := kind
  have spells := source.spells_of_lexeme member
  rwa [token] at spells

theorem SourceUnit.contract_mem_nodes {c : Contract Unit} (member : c ∈ u.contracts) :
    .contract c ∈ u.nodes := by
  rw [u.contracts_eq] at member
  obtain ⟨n, inside, defines⟩ := List.mem_flatMap.1 member
  cases n with
  | contract d => rwa [List.mem_singleton.1 defines]
  | pragma s | inclusion s => cases defines

theorem Source.spells_of_contract (read : source.parse.unit = .ok u) {c : Contract Unit}
    (member : c ∈ u.contracts) : Kind.identifier.Spells c.name.text.toList := by
  exact source.spells_of_ident read ⟨_, u.contract_mem_nodes member, .single List.mem_cons_self⟩

theorem Source.spells_of_function (read : source.parse.unit = .ok u) {f : FunctionDef Unit}
    (member : f ∈ u.functions) : Kind.identifier.Spells f.name.display.toList := by
  cases name : f.name with
  | named i =>
      obtain ⟨c, inU, inC⟩ := List.mem_flatMap.1 member
      obtain ⟨m, inM, own⟩ := List.mem_filterMap.1 inC
      obtain rfl : m = .function f := by
        cases m with
        | function g => exact congrArg Member.function (Option.some.inj own)
        | _ => cases own
      have part : Construct.member (.function f) ∈ (Construct.node (.contract c)).parts := by
        simp [Construct.parts, Node.parts, inM]
      have own : Construct.ident i ∈ (Construct.member (.function f)).parts := by
        simp [Construct.parts, Member.parts, FunctionDef.parts, name, FunctionName.ident?]
      exact source.spells_of_ident read ⟨_, u.contract_mem_nodes inU, .tail (.single part) own⟩
  | constructor | fallback => exact .identifier (by decide) (List.all_eq_true.1 (by decide))

end Files
end SafeSubset
