/-! Places in a source text. Every offset counts bytes of the text's UTF-8
form, so a span means the same to every reader of the file. -/
namespace SafeSubset

/-- The bytes from `start` up to, but not including, `stop`. -/
structure Span where
  start : Nat
  stop : Nat
  deriving DecidableEq, Repr, Inhabited

namespace Span

/-- The empty span at an offset. -/
def point (offset : Nat) : Span := ⟨offset, offset⟩

/-- `outer.Contains inner`: no byte or end of `inner` lies outside `outer`. -/
def Contains (outer inner : Span) : Prop :=
  outer.start ≤ inner.start ∧ inner.stop ≤ outer.stop

instance (outer inner : Span) : Decidable (outer.Contains inner) :=
  inferInstanceAs (Decidable (_ ∧ _))

/-- The two spans share a byte, but neither contains the other. -/
def PartiallyOverlaps (a b : Span) : Prop :=
  a.start < b.stop ∧ b.start < a.stop ∧ ¬ a.Contains b ∧ ¬ b.Contains a

instance (a b : Span) : Decidable (a.PartiallyOverlaps b) :=
  inferInstanceAs (Decidable (_ ∧ _ ∧ _ ∧ _))

/-- Whether the span is a place between two bytes. -/
def isEmpty (s : Span) : Bool := s.start = s.stop

/-- A place comes before the spans that start there. -/
def rank (s : Span) : Nat := if s.isEmpty then 0 else 1

/-- The order of spans: by start, at one start an empty span first, and then a
longer one before those inside it. -/
def Before (a b : Span) : Prop :=
  a.start < b.start ∨
    a.start = b.start ∧ (a.rank < b.rank ∨ a.rank = b.rank ∧ b.stop < a.stop)

instance (a b : Span) : Decidable (a.Before b) := inferInstanceAs (Decidable (_ ∨ _))

/-- Spans in their order. -/
def sort (ss : List Span) : List Span := ss.mergeSort fun a b => !decide (b.Before a)

theorem Before.irrefl (a : Span) : ¬ a.Before a := by
  simp [Before]

theorem Before.trans {a b c : Span} (ab : a.Before b) (bc : b.Before c) : a.Before c := by
  simp only [Before] at *
  omega

/-- Of two different spans one comes before the other. -/
theorem Before.total {a b : Span} (ne : a ≠ b) (nb : ¬ a.Before b) : b.Before a := by
  have : ¬ (a.start = b.start ∧ a.stop = b.stop) := fun h => ne (by
    cases a; cases b; simp_all)
  simp only [Before] at *
  omega

end Span

/-- A word of the source together with its place. -/
structure Ident where
  text : String
  span : Span
  deriving DecidableEq, Repr, Inhabited

end SafeSubset
