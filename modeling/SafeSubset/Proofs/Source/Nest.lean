import SafeSubset.Proofs.Edits.Arranged
import Mathlib.Data.List.Pairwise
import Mathlib.Logic.Relation

/-! Trees with a span at each node, where the parts of a node lie one behind the other
inside it. Of two nodes one stands in the other, or they lie apart. -/
namespace SafeSubset

theorem Arranged.pairwise {lo hi : Nat} {ss : List Span} (h : Arranged lo ss hi) :
    ss.Pairwise fun a b => a.stop ≤ b.start := by
  induction h with
  | nil => exact .nil
  | cons from_le starts forward rest ih =>
      exact .cons (fun s member => (rest.bounds member).1) ih

variable {ε : Type} {parts : ε → List ε} {place : ε → Span}

/-- `d` is `e` or stands somewhere in it. -/
abbrev Under (parts : ε → List ε) : ε → ε → Prop := Relation.ReflTransGen fun e d => d ∈ parts e

/-- A tree whose nodes have their parts in order inside them. -/
inductive Nest (parts : ε → List ε) (place : ε → Span) : ε → Prop where
  | node {e : ε} (wide : (place e).start < (place e).stop)
      (inside : Arranged (place e).start ((parts e).map place) (place e).stop)
      (inner : ∀ d ∈ parts e, Nest parts place d) : Nest parts place e

/-- Neither of two spans has a byte of the other. -/
def Span.Apart (a b : Span) : Prop := a.stop ≤ b.start ∨ b.stop ≤ a.start

namespace Nest

variable {e d a b : ε} {es : List ε} {lo hi : Nat}

theorem wide (h : Nest parts place e) : (place e).start < (place e).stop := by
  cases h
  assumption

/-- What stands in a node lies in it. -/
theorem under (h : Nest parts place e) (stands : Under parts e d) :
    Nest parts place d ∧ (place e).Contains (place d) := by
  induction stands with
  | refl => exact ⟨h, Nat.le_refl _, Nat.le_refl _⟩
  | tail _ part ih =>
      obtain ⟨⟨-, inside, inner⟩, from_le, le⟩ := ih
      obtain ⟨from_le', -, -, le'⟩ := inside.bounds (List.mem_map_of_mem part)
      exact ⟨inner _ part, by omega, by omega⟩

theorem apart_of_ne (inside : Arranged lo (es.map place) hi) (first : a ∈ es) (second : b ∈ es)
    (ne : a ≠ b) : (place a).Apart (place b) := by
  have pairwise : es.Pairwise fun a b => (place a).Apart (place b) :=
    (List.pairwise_map.1 inside.pairwise).imp fun le => .inl le
  have : Std.Symm fun a b => (place a).Apart (place b) := ⟨fun _ _ => Or.symm⟩
  exact pairwise.forall first second ne

theorem Apart.mono {s t s' t' : Span} (apart : s.Apart t) (first : s.Contains s')
    (second : t.Contains t') : s'.Apart t' := by
  simp only [Span.Apart, Span.Contains] at *
  omega

/-- Two nodes of trees that lie in order. -/
theorem forest (inside : Arranged lo (es.map place) hi) (nests : ∀ e ∈ es, Nest parts place e)
    (one : ∀ e ∈ es, ∀ {a b}, Under parts e a → Under parts e b →
      Under parts a b ∨ Under parts b a ∨ (place a).Apart (place b))
    (top : e ∈ es) (first : Under parts e a) (top' : d ∈ es) (second : Under parts d b) :
    Under parts a b ∨ Under parts b a ∨ (place a).Apart (place b) := by
  by_cases same : e = d
  · subst same
    exact one e top first second
  · have apart := apart_of_ne inside top top' same
    exact .inr (.inr (Apart.mono apart ((nests e top).under first).2 ((nests d top').under second).2))

/-- Of two nodes of a tree one stands in the other, or they lie apart. -/
theorem relate (h : Nest parts place e) : ∀ {a b}, Under parts e a → Under parts e b →
    Under parts a b ∨ Under parts b a ∨ (place a).Apart (place b) := by
  induction h with
  | node wide inside inner ih =>
      intro a b first second
      rcases Relation.ReflTransGen.cases_head first with rfl | ⟨c, part, first⟩
      · exact .inl second
      rcases Relation.ReflTransGen.cases_head second with rfl | ⟨d, part', second⟩
      · exact .inr (.inl (.head part first))
      · exact forest inside inner ih part first part' second

end Nest
end SafeSubset
