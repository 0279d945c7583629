import SafeSubset.Proofs.Grammar.File
import SafeSubset.Proofs.Syntax.Constructs

/-! Which tokens each node of a file's tree is read off. The tokens of a node are
those that its phrase takes, its span is their extent, and the tokens of its parts
stand among them in the order of the parts. -/
namespace SafeSubset

open Token (Kind Spaced Lexeme Holds lexemes width extent)
open Grammar (Phrase Symbol Meaning Rule)
open Grammar.Phrase

/-- Whether some tokens are those that a node is read off: what the phrase for the node
takes. Expressions and types are read in chains, from the left, so theirs are given by
how a tree is written. -/
def Grammar.Phrase.Takes (source : Source) (o : Nat) : Construct → List Spaced → Prop
  | .ident i, ts => ∃ rest, Phrase.Reads source ident o i ts rest
  | .typeName t, ts => t.Written ts
  | .expr e, ts => e.Located o ts
  | .localVariable v, ts => ∃ rest, Phrase.Reads source localVariable o v ts rest
  | .stmt s, ts => ∃ rest, Phrase.Reads source statementRule o s ts rest ∨
      Phrase.Reads source forInitial o s ts rest
  | .block b, ts => ∃ rest, Phrase.Reads source block o b ts rest
  | .parameter p, ts => ∃ rest, Phrase.Reads source parameter o p ts rest
  | .field f, ts => ∃ rest, Phrase.Reads source field o f ts rest
  | .invocation m, ts => ∃ rest, Phrase.Reads source invocation o m ts rest
  | .base b, ts => ∃ rest, Phrase.Reads source base o b ts rest
  | .member m, ts => ∃ rest, Phrase.Reads source member o m.unnumbered ts rest
  | .node n, ts =>
      ∃ rest, Phrase.Reads source (pragma <|> inclusion <|> contract) o n.unnumbered ts rest

/-- A node with its tokens, and its parts with theirs. -/
inductive Construct.Occupies (source : Source) : Nat → Construct → List Spaced → Prop where
  | node {o : Nat} {x : Construct} {ts : List Spaced} (gs : List (List Spaced))
      (parts : List (Construct × List Spaced)) (some : ts ≠ []) (span : x.span = extent o ts)
      (takes : Takes source o x ts) (same : parts.map Prod.fst = x.parts)
      (weave : Weave (Construct.Occupies source) o gs parts ts) : x.Occupies source o ts

variable {source : Source} {o : Nat} {ts rest : List Spaced}

namespace Construct

variable {x y : Construct}

theorem Occupies.intro (some : ts ≠ []) (span : x.span = extent o ts) (takes : Takes source o x ts)
    (laid : Laid (Occupies source) o x.parts ts) : x.Occupies source o ts := by
  obtain ⟨gs, parts, weave, same⟩ := laid
  exact .node gs parts some span takes same weave

theorem Occupies.laid (h : x.Occupies source o ts) : Laid (Occupies source) o x.parts ts := by
  obtain ⟨gs, parts, -, -, -, same, weave⟩ := h
  exact ⟨gs, parts, weave, same⟩

theorem Occupies.span (h : x.Occupies source o ts) : ts ≠ [] ∧ x.span = extent o ts := by
  obtain ⟨-, -, some, span, -⟩ := h
  exact ⟨some, span⟩

theorem Occupies.takes (h : x.Occupies source o ts) : Takes source o x ts := by
  obtain ⟨-, -, -, -, takes, -⟩ := h
  exact takes

/-- What holds of a node once it holds of its parts where they stand holds of every node. -/
theorem Occupies.induction {P : Nat → Construct → List Spaced → Prop}
    (node : ∀ {o x ts}, ts ≠ [] → x.span = extent o ts → Takes source o x ts →
      Laid (fun o y us => y.Occupies source o us ∧ P o y us) o x.parts ts → P o x ts)
    (h : x.Occupies source o ts) : P o x ts := by
  refine @Occupies.rec source (fun o x ts _ => P o x ts)
    (fun o gs parts ts _ => Weave (fun o y us => y.Occupies source o us ∧ P o y us) o gs parts ts)
    ?_ ?_ ?_ o x ts h
  · intro o x ts gs parts some span takes same _ weave
    exact node some span takes ⟨gs, parts, weave, same⟩
  · intros
    exact .last
  · intro o g us vs x gs parts written _ holds rest
    exact .part g us ⟨written, holds⟩ rest

theorem Alike.takes (alike : x.Alike y) (h : Takes source o x ts) : Takes source o y ts := by
  cases alike with
  | refl => exact h
  | member same =>
      rw [Takes, same] at h
      exact h
  | node same =>
      rw [Takes, same] at h
      exact h

/-- Tokens do not depend on numbers. -/
theorem Occupies.alike (h : x.Occupies source o ts) (alike : x.Alike y) : y.Occupies source o ts := by
  revert y
  refine h.induction (P := fun o x ts => ∀ {y}, x.Alike y → y.Occupies source o ts) ?_
  intro o x ts some span takes laid y alike
  refine .intro some (alike.span ▸ span) (alike.takes takes) ?_
  exact laid.transfer (fun _ _ _ _ alike part => part.2 alike) alike.parts

end Construct
end SafeSubset
