import SafeSubset.Source.Bytes

/-! Pending replacements of stretches of a source text. Each entry says what
is to stand for a span; an entry for an empty span is text to be put in at
that place. Reading a stretch of the text takes out the entries inside it, so
none is used twice. -/
namespace SafeSubset

/-- The text that is to stand for a span. -/
abbrev Edit := Span × Source

/-- Pending replacements in the order of their spans, one at most for each
span. -/
structure Edits where
  entries : List Edit
  ordered : entries.Pairwise fun a b => a.1.Before b.1

namespace Edits

def empty : Edits := ⟨[], .nil⟩

def size (es : Edits) : Nat := es.entries.length

def isEmpty (es : Edits) : Bool := es.entries.isEmpty

def get? (es : Edits) (span : Span) : Option Source := es.entries.lookup span

def contains (es : Edits) (span : Span) : Bool := (es.get? span).isSome

/-- Puts an entry in its place, for an earlier one of the same span. -/
def insertEntry (span : Span) (text : Source) : List Edit → List Edit
  | [] => [(span, text)]
  | e :: es =>
      if span = e.1 then (span, text) :: es
      else if span.Before e.1 then (span, text) :: e :: es
      else e :: insertEntry span text es

theorem mem_insertEntry {span : Span} {text : Source} {es : List Edit} {e : Edit}
    (h : e ∈ insertEntry span text es) : e = (span, text) ∨ e ∈ es := by
  induction es with
  | nil => simpa [insertEntry] using h
  | cons first es ih =>
      simp only [insertEntry] at h
      split at h
      · rcases List.mem_cons.1 h with h | h
        · exact .inl h
        · exact .inr (List.mem_cons_of_mem _ h)
      · split at h
        · simpa using h
        · rcases List.mem_cons.1 h with h | h
          · exact .inr (h ▸ List.mem_cons_self)
          · exact (ih h).imp_right (List.mem_cons_of_mem _)

theorem ordered_insertEntry (span : Span) (text : Source) {es : List Edit}
    (ordered : es.Pairwise fun a b => a.1.Before b.1) :
    (insertEntry span text es).Pairwise fun a b => a.1.Before b.1 := by
  induction es with
  | nil => simp [insertEntry]
  | cons first es ih =>
      obtain ⟨before, rest⟩ := List.pairwise_cons.1 ordered
      simp only [insertEntry]
      split
      · next same => exact List.pairwise_cons.2 ⟨fun e h => same ▸ before e h, rest⟩
      · next different =>
        split
        · next earlier =>
          refine List.pairwise_cons.2 ⟨fun e h => ?_, ordered⟩
          rcases List.mem_cons.1 h with h | h
          · exact h ▸ earlier
          · exact earlier.trans (before e h)
        · next later =>
          refine List.pairwise_cons.2 ⟨fun e h => ?_, ih rest⟩
          rcases mem_insertEntry h with h | h
          · exact h ▸ Span.Before.total different later
          · exact before e h

/-- Records what is to stand for a span. -/
def insert (es : Edits) (span : Span) (text : Source) : Edits :=
  ⟨insertEntry span text es.entries, ordered_insertEntry span text es.ordered⟩

/-- Records text to be put in at a place, behind what is to be put in there
already. -/
def insertAt (es : Edits) (offset : Nat) (text : Source) : Edits :=
  es.insert (.point offset) ((es.get? (.point offset)).getD [] ++ text)

def filter (es : Edits) (p : Edit → Bool) : Edits := ⟨es.entries.filter p, es.ordered.filter p⟩

/-- Whether an entry belongs to a range: it starts in it and does not reach
beyond it. Text to be put in at the end of the range belongs to what
follows. -/
def within (range : Span) (e : Edit) : Bool :=
  range.start ≤ e.1.start && e.1.start < range.stop && e.1.stop ≤ range.stop

/-- The source from an offset to a stop with the given entries in place. An
entry that starts inside the one before is dropped. -/
def fill (source : Source) (stop : Nat) (offset : Nat) : List Edit → Source
  | [] => Source.slice source ⟨offset, stop⟩
  | e :: es =>
      if e.1.start < offset then fill source stop offset es
      else
        Source.slice source ⟨offset, e.1.start⟩ ++ e.2 ++ fill source stop e.1.stop es

/-- The source of a range with the entries that belong to it in place, and the
entries that remain. -/
def extract (es : Edits) (source : Source) (range : Span) : Source × Edits :=
  (fill source range.stop range.start (es.filter (within range)).entries,
    es.filter fun e => !within range e)

/-- The text for a span and the entries that remain: the entry for the span
itself, or else its source with the entries inside it in place. -/
def consume (es : Edits) (source : Source) (span : Span) : Source × Edits :=
  match es.get? span with
  | some text => (text, es.filter fun e => e.1 ≠ span)
  | none => es.extract source span

/-- Whether spans in their order are nested or apart. Those that are still open
are at hand, the innermost first. -/
def nestedFrom (opened : List Span) : List Span → Bool
  | [] => true
  | s :: ss =>
      let around := opened.dropWhile fun o => o.stop ≤ s.start
      if around.head?.any fun o => o.stop < s.stop then false
      else nestedFrom (s :: around) ss

/-- Whether no entry overlaps another one in part. -/
def isNested (es : Edits) : Bool :=
  nestedFrom [] ((es.entries.map Prod.fst).filter fun s => !s.isEmpty)

end Edits
end SafeSubset
