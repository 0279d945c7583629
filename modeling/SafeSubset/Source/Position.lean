import SafeSubset.Source.Bytes

/-! Line and column of an offset, both counted from one. A column counts
characters, not bytes, and only a newline ends a line. -/
namespace SafeSubset

structure Position where
  line : Nat
  column : Nat
  deriving DecidableEq, Repr

namespace Position

/-- The place of the first character. -/
def origin : Position := ⟨1, 1⟩

/-- The place just after a character. -/
def after (p : Position) (c : Char) : Position :=
  if c = '\n' then ⟨p.line + 1, 1⟩ else ⟨p.line, p.column + 1⟩

end Position

namespace Source

/-- The text before an offset. An offset past the end counts as the end, and
one inside a character has the whole text before it. -/
def before (source : Source) (offset : Nat) : Source :=
  (takeBytes (min offset (byteLength source)) source).getD source

def position (source : Source) (offset : Nat) : Position :=
  (before source offset).foldl Position.after Position.origin

end Source
end SafeSubset
