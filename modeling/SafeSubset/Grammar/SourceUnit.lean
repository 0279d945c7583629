import SafeSubset.Grammar.Definition
import SafeSubset.Grammar.Expression
import SafeSubset.Grammar.TypeName

/-! Reading a whole file. The file is read to its end or not at all; where it
is not, the furthest failure says why. -/
namespace SafeSubset

namespace Grammar

/-- The rules of the language. -/
def rules : Rules Symbol.Value
  | .typeName => Phrase.typeNameRule
  | .expression => Phrase.expressionRule
  | .operand => Phrase.operandRule
  | .statement => Phrase.statementRule

/-- Reads a phrase. No nonterminal comes back to itself without a token in
between, so at each place between tokens calls nest no deeper than there are
nonterminals. -/
def Phrase.read {α : Type} (r : Phrase α) : Reader α := fun c register =>
  Rule.read (rules.read (Symbol.all.length * (c.rest.length + 1))) r c register

/-- Reads a phrase that takes every token. A phrase that is not there has
noted a failure. -/
def Phrase.readAll {α : Type} (r : Phrase α) (c : Cursor) : Except Failure α :=
  match r.read c none with
  | (none, register) => .error (register.getD (c.unmet .anything))
  | (some (a, after), register) =>
      if after.rest.isEmpty then .ok a
      else .error (Register.merge register (after.unmet .endOfInput))

end Grammar

/-- Gives the functions of a contract the numbers from `id` on. -/
def numberMembers {α : Type} (id : Nat) : List (Member α) → Nat × List (Member α)
  | [] => (id, [])
  | .function f :: ms =>
      let (next, ms) := numberMembers (id + 1) ms
      (next, .function { f with id } :: ms)
  | m :: ms =>
      let (next, ms) := numberMembers id ms
      (next, m :: ms)

/-- Gives each contract a number and then its functions theirs, from `id` on. -/
def numberNodes {α : Type} (id : Nat) : List (Node α) → List (Node α)
  | [] => []
  | .contract c :: ns =>
      let (next, members) := numberMembers (id + 1) c.members
      .contract { c with id, members } :: numberNodes next ns
  | n :: ns => n :: numberNodes id ns

/-- What reading a file gives. A file with faults in its tokens may still have
a unit, made of the tokens that remain. -/
structure Parsed where
  faults : List Token.Fault
  unit : Except Grammar.Failure (SourceUnit Unit)

/-- Reads a file. The span of its unit is the whole text. -/
def Source.parse (source : Source) : Parsed :=
  let scanned := Token.scan source
  { faults := scanned.faults
    unit := (Grammar.Phrase.nodes.readAll (.start source scanned.lexemes)).map fun nodes =>
      ⟨numberNodes 0 nodes, ⟨0, Source.byteLength source⟩⟩ }

end SafeSubset
