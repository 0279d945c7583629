import SafeSubset.Source.Span

/-! A source text is its list of characters, addressed by byte offsets. A cut
exists only where both ends fall between two characters, so every function
here that cuts a text answers `none` inside a character or past the end. -/
namespace SafeSubset

abbrev Source := List Char

namespace Source

/-- The number of bytes of the UTF-8 form. -/
def byteLength : Source → Nat
  | [] => 0
  | c :: cs => c.utf8Size + byteLength cs

/-- The text after its first `n` bytes. -/
def dropBytes : Nat → Source → Option Source
  | 0, cs => some cs
  | _ + 1, [] => none
  | n + 1, c :: cs => if c.utf8Size ≤ n + 1 then dropBytes (n + 1 - c.utf8Size) cs else none

/-- The first `n` bytes of the text. -/
def takeBytes : Nat → Source → Option Source
  | 0, _ => some []
  | _ + 1, [] => none
  | n + 1, c :: cs =>
      if c.utf8Size ≤ n + 1 then (takeBytes (n + 1 - c.utf8Size) cs).map (c :: ·) else none

/-- The text of a span, `none` for a span that is reversed, reaches past the
end, or starts or stops inside a character. -/
def slice? (source : Source) (span : Span) : Option Source :=
  if span.start ≤ span.stop then
    (dropBytes span.start source).bind (takeBytes (span.stop - span.start))
  else none

/-- The text of a span, empty where the span cuts no text. -/
def slice (source : Source) (span : Span) : Source :=
  (slice? source span).getD []

end Source
end SafeSubset
