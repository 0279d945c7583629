import SafeSubset.Proofs.Checked.Rewritten
import SafeSubset.Proofs.Grammar.Completeness
import SafeSubset.Proofs.Grammar.Standing

/-! The text for an expression means its tree. Read as an expression on its own, it
is cut into tokens without a fault, all of which are taken, and gives the tree that
the rewriting is about. -/
namespace SafeSubset.Checked

open Token (Spaced Holds Lexes core)

variable {source : Source} {e : Expr Ty} {o : Nat} {ts : List Spaced} {x : Source}

/-- Whether the operations of a contract are replaced: the file does not define the
library, and the contract does not attach it. -/
def rewrites (u : SourceUnit Ty) (c : Contract Ty) : Bool :=
  !(u.contracts.any fun c => isLibraryName c.name.text) && !decide (Attaches c)

/-- What becomes of the text of an expression of a contract. -/
def producedText (source : Source) (u : SourceUnit Ty) (c : Contract Ty) (e : Expr Ty) : Source :=
  if rewrites u c then outText source e else Source.slice source e.span

/-- What becomes of an expression of a contract. -/
def producedTree (u : SourceUnit Ty) (c : Contract Ty) (e : Expr Ty) : Expr Ty :=
  if rewrites u c then tree e else e

/-- A text that means an expression: it is cut into tokens without a fault, and they
are read as the expression, up to places and types. -/
def Means (text : Source) (e : Expr Ty) : Prop :=
  (Token.scan text).faults = [] ∧
    ∃ e', Grammar.Phrase.expression.readAll (.start text (Token.scan text).lexemes) = .ok e' ∧
      e'.bare = e.bare

/-- Tokens that their text is cut into mean what they spell. -/
theorem means_of_spelled (spelled : e.Spelled ts) (lexes : Lexes ts []) : Means (core ts) e := by
  have bare : Lexes (Token.regap [] ts) [] := lexes.regap trivial
  obtain ⟨faults, found⟩ := Token.scan_of_lexes bare
  obtain ⟨e', read, same⟩ := Grammar.Phrase.readAll_of_spelled (spelled.regap [])
  rw [textOf_bare] at faults found read
  rw [← found] at read
  exact ⟨faults, e', read, same⟩

theorem means_slice (stands : Stands source Expr.Located e) : Means (Source.slice source e.span) e := by
  obtain ⟨o, ts, x, located, holds, lexes⟩ := stands
  obtain ⟨some, same⟩ := located.span
  rw [same, holds.slice some]
  exact means_of_spelled located.spelled (lexes.soft ⟨.inr (by simp), by simp⟩)

theorem means_outText (regular : ∀ d ∈ e.subexpressions, d.AssignsPlace ∧ CreatesOther d)
    (stands : Stands source Expr.Located e) : Means (outText source e) (tree e) := by
  obtain ⟨o, ts, x, located, holds, lexes⟩ := stands
  obtain ⟨ts', rewrites⟩ : ∃ ts', Rewrites source True o e ts ts' :=
    exists_rewrites (fun _ => regular) located holds
  rw [rewrites.text located holds]
  exact means_of_spelled (rewrites.spelled trivial) (rewrites.lexes x [] lexes ⟨.inr (by simp), by simp⟩)

/-- The text that each expression of an accepted file becomes means the tree that it
becomes, if every compound assignment of the file assigns to a place. -/
theorem means_produced {u : SourceUnit Ty} (accepted : source.front = .ok u)
    (places : ∀ d ∈ u.expressions, d.AssignsPlace) {c : Contract Ty} (inside : c ∈ u.contracts)
    (member : e ∈ c.expressions) : Means (producedText source u c e) (producedTree u c e) := by
  have stands := Source.front_stands accepted inside e member
  unfold producedText producedTree
  split
  · refine means_outText (fun d deep => ?_) stands
    have within : d ∈ c.expressions := by
      obtain ⟨root, top, member⟩ := List.mem_flatMap.1 (c.expressions_eq ▸ member)
      rw [c.expressions_eq]
      exact List.mem_flatMap.2 ⟨root, top, Expr.mem_subexpressions_trans deep member⟩
    refine ⟨places d (List.mem_flatMap.2 ⟨c, inside, within⟩), ?_⟩
    have typed := Source.front_typed accepted inside d within
    cases d with
    | new i t => exact typed.creates
    | _ => trivial
  · exact means_slice stands

end SafeSubset.Checked
