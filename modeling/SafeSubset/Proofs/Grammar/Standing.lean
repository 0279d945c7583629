import SafeSubset.Proofs.Grammar.File
import SafeSubset.Proofs.Grammar.Nested
import SafeSubset.Proofs.Token.Lexes
import SafeSubset.Proofs.Typing.Roots

/-! Every expression of an accepted file stands somewhere in its text: the text
there is cut into tokens that write the expression. -/
namespace SafeSubset

open Token (Spaced Holds Lexes width)

/-- The text has tokens that write `e` in the sense of `W`, and is cut into them. -/
def Stands {ε : Type} (source : Source) (W : Nat → ε → List Spaced → Prop) (e : ε) : Prop :=
  ∃ o ts x, W o e ts ∧ Holds source o ts ∧ Lexes ts x

variable {source x : Source} {ε : Type} {W : Nat → ε → List Spaced → Prop} {o : Nat}
  {us vs ts : List Spaced} {α : Type}

/-- What is laid out among tokens of the text stands there. -/
theorem Laid.stands {es : List ε} (laid : Laid W o es ts) (holds : Holds source o ts)
    (lexes : Lexes ts x) : ∀ e ∈ es, Stands source W e := by
  intro e member
  obtain ⟨before, us, behind, rfl, written⟩ := laid.mem member
  rw [List.append_assoc] at holds lexes
  have lexes := (Token.lexes_append.1 lexes).2
  exact ⟨_, us, _, written, holds.right.left, (Token.lexes_append.1 lexes).1⟩

/-- What is part of an expression stands among its tokens, at any depth. -/
theorem Expr.Located.mem {e d : Expr α} (located : e.Located o ts) (deep : d ∈ e.subexpressions) :
    ∃ before us behind, ts = before ++ us ++ behind ∧ d.Located (o + width before) us := by
  induction e using Expr.induction_children generalizing o ts with
  | node e ih =>
      rcases Expr.mem_subexpressions.1 deep with rfl | ⟨c, child, inside⟩
      · exact ⟨[], ts, [], by simp, by simpa using located⟩
      · obtain ⟨gs, parts, -, -, -, -, children, weave⟩ := located
        have laid : Laid Expr.Located o e.children ts := ⟨gs, parts, weave, children⟩
        obtain ⟨before, us, behind, rfl, part⟩ := laid.mem child
        obtain ⟨before', vs, behind', rfl, located⟩ := ih c child part inside
        exact ⟨before ++ before', vs, behind' ++ behind, by simp, by simpa [Nat.add_assoc] using located⟩

/-- The parts of what stands in the text stand there, at any depth. -/
theorem Stands.mem {e : Expr α} (stands : Stands source Expr.Located e) :
    ∀ d ∈ e.subexpressions, Stands source Expr.Located d := by
  intro d deep
  obtain ⟨o, ts, x, located, holds, lexes⟩ := stands
  obtain ⟨before, us, behind, rfl, part⟩ := located.mem deep
  rw [List.append_assoc] at holds lexes
  have lexes := (Token.lexes_append.1 lexes).2
  exact ⟨_, us, _, part, holds.right.left, (Token.lexes_append.1 lexes).1⟩

theorem Contract.Placed.roots {c : Contract α} (placed : c.Placed o ts) :
    Laid Expr.Located o c.roots ts := by
  obtain ⟨-, -, us, vs, rfl, -, bases, members, -⟩ := placed
  exact bases.append members

theorem Contract.Placed.stands {c : Contract α} (placed : c.Placed o ts) (holds : Holds source o ts)
    (lexes : Lexes ts x) : ∀ e ∈ c.expressions, Stands source Expr.Located e := by
  intro e member
  obtain ⟨root, inside, member⟩ := List.mem_flatMap.1 (c.expressions_eq ▸ member)
  exact Stands.mem (placed.roots.stands holds lexes root inside) e member

/-- Every expression of an accepted file stands in its text. -/
theorem Source.front_stands {u : SourceUnit Ty} (accepted : source.front = .ok u) {c : Contract Ty}
    (inside : c ∈ u.contracts) : ∀ e ∈ c.expressions, Stands source Expr.Located e := by
  obtain ⟨ts, tail, cut, holds, laid⟩ := front_placed accepted
  have cuts : Token.Cuts (ts.flatMap Spaced.pieces ++ tail.map (⟨.trivia, ·⟩)) [] :=
    cut ▸ Token.cuts_pieces source
  have lexes : Lexes ts _ := (Token.cuts_append.1 cuts).1
  obtain ⟨o, us, y, placed, here, cut'⟩ := laid.stands holds lexes c inside
  exact placed.stands here cut'

theorem SourceUnit.mem_contracts_annotate {v : SourceUnit α} {c : Contract Ty}
    (inside : c ∈ v.annotate.contracts) :
    ∃ (s : Typing.Surroundings) (d : Contract α), d ∈ v.contracts ∧ c = s.contractDef d := by
  rw [Typing.contracts_annotate] at inside
  obtain ⟨d, member, rfl⟩ := List.mem_map.1 inside
  exact ⟨_, d, member, rfl⟩

/-- Every expression of an accepted file has been typed. -/
theorem Source.front_typed {u : SourceUnit Ty} (accepted : source.front = .ok u) {c : Contract Ty}
    (inside : c ∈ u.contracts) : ∀ e ∈ c.expressions, Typing.Typed Unit e := by
  obtain ⟨v, -, -, rfl⟩ := front_annotate accepted
  obtain ⟨s, d, -, rfl⟩ := v.mem_contracts_annotate inside
  intro e member
  obtain ⟨root, top, member⟩ := List.mem_flatMap.1 ((s.contractDef d).expressions_eq ▸ member)
  exact (Typing.typed_contractDef s d root top).mem e member

end SafeSubset
