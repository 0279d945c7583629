import SafeSubset.Proofs.Edits.Emission
import SafeSubset.Proofs.Source.Nest

/-! What is put out when a range of a source is read with the edits that belong to it:
those that start where the one put out before ends, or behind. Where no two edits
overlap in part, these are the outermost ones. Two ranges that meet where no edit lies
across are read one after the other as they are read in one go. -/
namespace SafeSubset

/-- The offset falls between two characters of the source, or is one of its ends. -/
abbrev Source.Place (source : Source) (offset : Nat) : Prop := source.Stretch offset [] offset

namespace Span

variable {a b : Span}

theorem before_iff : a.Before b ↔ a.start < b.start ∨
    a.start = b.start ∧ (a.start = a.stop ∧ b.start ≠ b.stop ∨
      (a.start = a.stop ↔ b.start = b.stop) ∧ b.stop < a.stop) := by
  by_cases first : a.start = a.stop <;> by_cases second : b.start = b.stop <;>
    simp [Before, rank, isEmpty, first, second]

theorem Before.start_le (h : a.Before b) : a.start ≤ b.start := by
  rw [before_iff] at h
  omega

/-- A span has another one inside it. A place counts as inside if it is neither where the
span starts nor where it stops. -/
def Covers (outer inner : Span) : Prop :=
  outer.start < outer.stop ∧ outer ≠ inner ∧
    if inner.start = inner.stop then outer.start < inner.start ∧ inner.start < outer.stop
    else outer.Contains inner

/-- Of two spans that do not overlap in part, one covers the other if it comes before it
and stops behind where the other starts. -/
theorem covers_iff (forward : b.start ≤ b.stop) (apart : ¬ a.PartiallyOverlaps b) :
    a.Covers b ↔ a.Before b ∧ b.start < a.stop := by
  obtain ⟨start, stop⟩ := a
  obtain ⟨start', stop'⟩ := b
  simp only [PartiallyOverlaps, Contains] at apart
  simp only [before_iff, Covers, Contains, ne_eq, mk.injEq] at forward ⊢
  split <;> omega

end Span

namespace Edits

variable {source : Source} {offset mid stop : Nat} {range : Span} {es ds : List Edit} {d e : Edit}

/-- The edits that are put out from an offset on, each of which starts where the one
before stops, or behind. -/
def kept : (offset : Nat) → List Edit → List Edit
  | _, [] => []
  | offset, e :: es => if e.1.start < offset then kept offset es else e :: kept e.1.stop es

theorem kept_sublist : (kept offset es).Sublist es := by
  induction es generalizing offset with
  | nil => exact .slnil
  | cons e es ih =>
      by_cases behind : e.1.start < offset
      · simpa only [kept, behind, if_true] using ih.cons e
      · simpa only [kept, behind, if_false] using ih.cons_cons e

theorem fill_eq_kept : fill source stop offset es = substituted source stop offset (kept offset es) := by
  induction es generalizing offset with
  | nil => rfl
  | cons e es ih =>
      by_cases behind : e.1.start < offset
      · simp only [fill, kept, behind, if_true, ih]
      · simp only [fill, kept, behind, if_false, substituted, ih]

theorem arranged_kept (inside : ∀ e ∈ es, e.1.start ≤ e.1.stop ∧ e.1.start < stop ∧ e.1.stop ≤ stop)
    (le : offset ≤ stop) : Arranged offset ((kept offset es).map Prod.fst) stop := by
  induction es generalizing offset with
  | nil => exact .nil le
  | cons e es ih =>
      have later : ∀ e ∈ es, e.1.start ≤ e.1.stop ∧ e.1.start < stop ∧ e.1.stop ≤ stop :=
        fun d member => inside d (List.mem_cons_of_mem e member)
      by_cases behind : e.1.start < offset
      · simpa only [kept, behind, if_true] using ih later le
      · obtain ⟨forward, starts, stops⟩ := inside e List.mem_cons_self
        simp only [kept, behind, if_false, List.map_cons]
        exact .cons (Nat.le_of_not_lt behind) starts forward (ih later stops)

/-- Which edits are put out, where no two of them overlap in part: those that start at the
offset or behind, and at the end of each edit from there on that comes before, or behind. -/
theorem mem_kept (ordered : es.Pairwise fun a b => a.1.Before b.1)
    (forward : ∀ e ∈ es, e.1.start ≤ e.1.stop)
    (nested : ∀ d ∈ es, ∀ e ∈ es, ¬ d.1.PartiallyOverlaps e.1) :
    e ∈ kept offset es ↔ e ∈ es ∧ offset ≤ e.1.start ∧
      ∀ d ∈ es, offset ≤ d.1.start → d.1.Before e.1 → d.1.stop ≤ e.1.start := by
  induction es generalizing offset with
  | nil => simp [kept]
  | cons first es ih =>
      obtain ⟨before, rest⟩ := List.pairwise_cons.1 ordered
      have ih := fun offset => @ih offset rest
        (fun d member => forward d (List.mem_cons_of_mem first member))
        fun c hc d hd => nested c (List.mem_cons_of_mem first hc) d (List.mem_cons_of_mem first hd)
      have forwardFirst := forward first List.mem_cons_self
      by_cases behind : first.1.start < offset
      · simp only [kept, behind, if_true, ih]
        constructor
        · rintro ⟨member, from_le, clear⟩
          refine ⟨List.mem_cons_of_mem first member, from_le, ?_⟩
          intro d hd le
          rcases List.mem_cons.1 hd with rfl | hd
          · omega
          · exact clear d hd le
        · rintro ⟨member, from_le, clear⟩
          rcases List.mem_cons.1 member with rfl | member
          · omega
          · exact ⟨member, from_le, fun d hd => clear d (List.mem_cons_of_mem first hd)⟩
      · simp only [kept, behind, if_false, List.mem_cons, ih]
        constructor
        · rintro (rfl | ⟨member, from_le, clear⟩)
          · refine ⟨.inl rfl, Nat.le_of_not_lt behind, ?_⟩
            rintro d (rfl | hd) - earlier
            · exact absurd earlier (Span.Before.irrefl _)
            · exact absurd (earlier.trans (before d hd)) (Span.Before.irrefl _)
          · refine ⟨.inr member, by omega, ?_⟩
            rintro d (rfl | hd) - earlier
            · exact from_le
            · by_cases reach : first.1.stop ≤ d.1.start
              · exact clear d hd reach earlier
              · -- An edit that starts inside the first one stops there too.
                have apart := nested first List.mem_cons_self d (List.mem_cons_of_mem first hd)
                have order := Span.before_iff.1 (before d hd)
                have start := earlier.start_le
                simp only [Span.PartiallyOverlaps, Span.Contains] at apart
                omega
        · rintro ⟨rfl | member, from_le, clear⟩
          · exact .inl rfl
          · right
            refine ⟨member, clear first (.inl rfl) (Nat.le_of_not_lt behind) (before e member), ?_⟩
            intro d hd le
            exact clear d (.inr hd) (by omega)

theorem kept_append (le : offset ≤ mid) (stops : ∀ e ∈ ds, e.1.stop ≤ mid)
    (starts : ∀ e ∈ es, mid ≤ e.1.start) :
    kept offset (ds ++ es) = kept offset ds ++ kept mid es := by
  induction ds generalizing offset with
  | nil =>
      cases es with
      | nil => rfl
      | cons e es =>
          have from_mid := starts e List.mem_cons_self
          have first : ¬ e.1.start < offset := by omega
          have second : ¬ e.1.start < mid := by omega
          simp only [List.nil_append, kept, first, second, if_false]
  | cons d ds ih =>
      have later : ∀ e ∈ ds, e.1.stop ≤ mid := fun e member => stops e (List.mem_cons_of_mem d member)
      by_cases behind : d.1.start < offset
      · simp only [List.cons_append, kept, behind, if_true, ih le later]
      · simp only [List.cons_append, kept, behind, if_false, ih (stops d List.mem_cons_self) later]

section Ranges

/-- Edits one behind the other, between places of the source, have a text with them in
place. -/
theorem Fills.of_arranged (arranged : Arranged offset (es.map Prod.fst) stop)
    (front : source.Place offset) (behind : source.Place stop)
    (places : ∀ e ∈ es, source.Place e.1.start ∧ source.Place e.1.stop) :
    Fills source offset es stop (Edits.substituted source stop offset es) := by
  induction es generalizing offset with
  | nil =>
      obtain ⟨le⟩ := arranged
      obtain ⟨text, rest⟩ := front.between behind le
      simp only [Edits.substituted, rest.slice]
      exact .done rest
  | cons e es ih =>
      obtain ⟨-⟩ | ⟨from_le, -, -, rest⟩ := arranged
      obtain ⟨starts, stops⟩ := places e List.mem_cons_self
      obtain ⟨text, before⟩ := front.between starts from_le
      simp only [Edits.substituted, before.slice]
      exact .edit before (ih rest stops fun d member => places d (List.mem_cons_of_mem e member))

variable {es : Edits} {start : Nat}

theorem ext {a b : Edits} (same : a.entries = b.entries) : a = b := by
  cases a
  cases b
  simpa using same

/-- No entry stops before it starts. -/
def Forward (es : Edits) : Prop := ∀ e ∈ es.entries, e.1.start ≤ e.1.stop

/-- Every entry starts and stops at a place of the source. -/
def Placed (source : Source) (es : Edits) : Prop :=
  ∀ e ∈ es.entries, source.Place e.1.start ∧ source.Place e.1.stop

/-- An entry that belongs to a range: it starts in it and does not reach beyond it. -/
def Belongs (es : Edits) (range : Span) (e : Edit) : Prop :=
  e ∈ es.entries ∧ range.start ≤ e.1.start ∧ e.1.start < range.stop ∧ e.1.stop ≤ range.stop

/-- An entry that belongs to a range, and that no other one that does so covers. -/
def Outermost (es : Edits) (range : Span) (e : Edit) : Prop :=
  es.Belongs range e ∧ ∀ d, es.Belongs range d → ¬ d.1.Covers e.1

/-- The entries that reading a range takes up. -/
def taken (es : Edits) (range : Span) : List Edit := (es.filter (within range)).entries

theorem ordered_taken (es : Edits) (range : Span) :
    (es.taken range).Pairwise fun a b => a.1.Before b.1 := (es.filter (within range)).ordered

theorem within_iff : within range e = true ↔
    range.start ≤ e.1.start ∧ e.1.start < range.stop ∧ e.1.stop ≤ range.stop := by
  simp [within, and_assoc]

theorem mem_taken : e ∈ es.taken range ↔ es.Belongs range e := by
  rw [taken, filter, List.mem_filter, within_iff, Belongs]

theorem mem_extract : e ∈ (es.extract source range).2.entries ↔ e ∈ es.entries ∧ ¬ es.Belongs range e := by
  have outside : (!within range e) = true ↔ ¬ within range e = true := by simp
  show e ∈ es.entries.filter (fun e => !within range e) ↔ _
  rw [List.mem_filter, outside, within_iff, Belongs]
  constructor
  · rintro ⟨pending, off⟩
    exact ⟨pending, fun belongs => off belongs.2⟩
  · rintro ⟨pending, off⟩
    exact ⟨pending, fun inside => off ⟨pending, inside⟩⟩

theorem arranged_taken (forward : es.Forward) (le : range.start ≤ range.stop) :
    Arranged range.start ((kept range.start (es.taken range)).map Prod.fst) range.stop := by
  apply arranged_kept _ le
  intro e member
  obtain ⟨pending, -, starts, stops⟩ := mem_taken.1 member
  exact ⟨forward e pending, starts, stops⟩

/-- Reading a range puts out its source with the kept entries in place. -/
theorem fills_extract (forward : es.Forward) (placed : es.Placed source)
    (le : range.start ≤ range.stop) (front : source.Place range.start)
    (behind : source.Place range.stop) :
    Fills source range.start (kept range.start (es.taken range)) range.stop
      (es.extract source range).1 := by
  have text : (es.extract source range).1 =
      substituted source range.stop range.start (kept range.start (es.taken range)) := fill_eq_kept
  rw [text]
  apply Fills.of_arranged (arranged_taken forward le) front behind
  intro e member
  exact placed e (mem_taken.1 (kept_sublist.subset member)).1

/-- Where no two entries overlap in part, those that a range puts out are the outermost. -/
theorem mem_kept_taken (forward : es.Forward)
    (nested : ∀ d ∈ es.entries, ∀ e ∈ es.entries, ¬ d.1.PartiallyOverlaps e.1) :
    e ∈ kept range.start (es.taken range) ↔ es.Outermost range e := by
  have pending : ∀ d ∈ es.taken range, d ∈ es.entries := fun d member => (mem_taken.1 member).1
  rw [mem_kept (es.ordered_taken range) (fun d member => forward d (pending d member))
    fun c hc d hd => nested c (pending c hc) d (pending d hd), mem_taken, Outermost]
  constructor
  · rintro ⟨belongs, -, clear⟩
    refine ⟨belongs, ?_⟩
    intro d inside covers
    obtain ⟨before, reaches⟩ :=
      (Span.covers_iff (forward e belongs.1) (nested d inside.1 e belongs.1)).1 covers
    have := clear d (mem_taken.2 inside) inside.2.1 before
    omega
  · rintro ⟨belongs, clear⟩
    refine ⟨belongs, belongs.2.1, ?_⟩
    intro d member _ before
    have inside := mem_taken.1 member
    by_contra reaches
    exact clear d inside ((Span.covers_iff (forward e belongs.1) (nested d inside.1 e belongs.1)).2
      ⟨before, Nat.lt_of_not_le reaches⟩)

/-- Where no two pending entries overlap in part, reading a range puts out its source with
the outermost of the entries that belong to it in place, each once and no other one. Text
for a place comes behind what stops there and before what starts there. The entries that
belong to the range are pending no longer, and the others are. -/
theorem extract_outermost (forward : es.Forward)
    (nested : ∀ d ∈ es.entries, ∀ e ∈ es.entries, ¬ d.1.PartiallyOverlaps e.1) (placed : es.Placed source)
    (le : range.start ≤ range.stop) (front : source.Place range.start)
    (behind : source.Place range.stop) :
    ∃ outer : List Edit, outer.Nodup ∧ (∀ e, e ∈ outer ↔ es.Outermost range e) ∧
      outer.Pairwise (fun a b => a.1.stop ≤ b.1.start ∧
        (b.1.start = b.1.stop → a.1.start < b.1.start)) ∧
      Fills source range.start outer range.stop (es.extract source range).1 ∧
      ∀ e, e ∈ (es.extract source range).2.entries ↔ e ∈ es.entries ∧ ¬ es.Belongs range e := by
  have ordered : (kept range.start (es.taken range)).Pairwise fun a b => a.1.Before b.1 :=
    (es.ordered_taken range).sublist kept_sublist
  have following := List.pairwise_map.1 (arranged_taken forward le).pairwise
  refine ⟨kept range.start (es.taken range), ?_, fun e => mem_kept_taken forward nested, ?_,
    fills_extract forward placed le front behind, fun e => mem_extract⟩
  · apply ordered.imp
    rintro a b before rfl
    exact Span.Before.irrefl _ before
  · apply (ordered.and following).imp
    rintro a b ⟨before, stops⟩
    refine ⟨stops, ?_⟩
    intro empty
    rw [Span.before_iff] at before
    omega

/-- A sum of two terms. -/
def sumSource : Source := "a = b + c * d;".toList

theorem sumSource_place {n : Nat} (le : n ≤ 14) : sumSource.Place n := by
  have widths : ∀ n < 15, Source.byteLength (sumSource.take n) = n := by decide
  exact ⟨sumSource.take n, sumSource.drop n, by simp, widths n (by omega), rfl⟩

/-- The sum, its second term and the variable before are to be replaced, and there is text
to be put in around the sum and in the midst of it. -/
def sumEdits : Edits :=
  ((((((empty.insert ⟨0, 1⟩ "x".toList).insert ⟨4, 13⟩ "SUM".toList).insert ⟨8, 13⟩ "PRODUCT".toList).insertAt
    4 "<".toList).insertAt 6 "lost".toList).insertAt 13 ">".toList)

theorem extract_outermost_sum : ∃ outer : List Edit,
    (∀ e, e ∈ outer ↔ sumEdits.Outermost ⟨0, 14⟩ e) ∧
      Fills sumSource 0 outer 14 (sumEdits.extract sumSource ⟨0, 14⟩).1 ∧
      (sumEdits.extract sumSource ⟨0, 14⟩).1 = "x = <SUM>;".toList := by
  have bounds : ∀ e ∈ sumEdits.entries, e.1.start ≤ e.1.stop ∧ e.1.start ≤ 14 ∧ e.1.stop ≤ 14 := by
    decide
  have nested : ∀ d ∈ sumEdits.entries, ∀ e ∈ sumEdits.entries, ¬ d.1.PartiallyOverlaps e.1 := by
    decide
  obtain ⟨outer, -, members, -, fills, -⟩ := @extract_outermost sumSource ⟨0, 14⟩ sumEdits
    (fun e member => (bounds e member).1) nested
    (fun e member => ⟨sumSource_place (bounds e member).2.1, sumSource_place (bounds e member).2.2⟩)
    (by decide) (sumSource_place (by decide)) (sumSource_place (by decide))
  exact ⟨outer, members, fills, by decide⟩

/-- Where an entry does not lie across a place, it belongs to a range around that place if
it belongs to one of the two halves. -/
theorem within_halves (le : start ≤ mid) (le' : mid ≤ stop)
    (apart : ¬ (e.1.start < mid ∧ mid < e.1.stop)) :
    within ⟨start, stop⟩ e = (within ⟨start, mid⟩ e || within ⟨mid, stop⟩ e) := by
  rw [Bool.eq_iff_iff, Bool.or_eq_true]
  simp only [within_iff]
  omega

/-- The entries of two ranges that meet, in order, are those of both together. -/
theorem filter_within_halves (ordered : ds.Pairwise fun a b => a.1.Before b.1) (le : start ≤ mid)
    (le' : mid ≤ stop) (apart : ∀ e ∈ ds, ¬ (e.1.start < mid ∧ mid < e.1.stop)) :
    ds.filter (within ⟨start, stop⟩) =
      ds.filter (within ⟨start, mid⟩) ++ ds.filter (within ⟨mid, stop⟩) := by
  induction ds with
  | nil => rfl
  | cons e es ih =>
      obtain ⟨before, rest⟩ := List.pairwise_cons.1 ordered
      have ih := ih rest fun d member => apart d (List.mem_cons_of_mem e member)
      by_cases behind : mid ≤ e.1.start
      · -- From here on all entries start in the second half.
        have none : ∀ d ∈ e :: es, within ⟨start, mid⟩ d = false := by
          intro d member
          simp only [Bool.eq_false_iff, ne_eq, within_iff]
          rcases List.mem_cons.1 member with rfl | member
          · omega
          · have := (before d member).start_le
            omega
        have empty : (e :: es).filter (within ⟨start, mid⟩) = [] :=
          List.filter_eq_nil_iff.2 fun d member => Bool.eq_false_iff.1 (none d member)
        rw [empty, List.nil_append]
        apply List.filter_congr
        intro d member
        rw [within_halves le le' (apart d member), none d member, Bool.false_or]
      · have none : within ⟨mid, stop⟩ e = false := by
          simp only [Bool.eq_false_iff, ne_eq, within_iff]
          omega
        have half := within_halves le le' (apart e List.mem_cons_self)
        rw [none, Bool.or_false] at half
        by_cases inside : within ⟨start, mid⟩ e
        · simp [half, none, inside, ih]
        · simp [half, none, inside, ih]

theorem taken_halves (le : start ≤ mid) (le' : mid ≤ stop)
    (apart : ∀ e ∈ es.entries, ¬ (e.1.start < mid ∧ mid < e.1.stop)) :
    es.taken ⟨start, stop⟩ =
      es.taken ⟨start, mid⟩ ++ (es.extract source ⟨start, mid⟩).2.taken ⟨mid, stop⟩ := by
  have second : (es.extract source ⟨start, mid⟩).2.taken ⟨mid, stop⟩ = es.taken ⟨mid, stop⟩ := by
    show (es.entries.filter fun e => !within ⟨start, mid⟩ e).filter (within ⟨mid, stop⟩) =
      es.entries.filter (within ⟨mid, stop⟩)
    rw [List.filter_filter]
    apply List.filter_congr
    intro e member
    by_cases inside : within ⟨start, mid⟩ e
    · have outside : ¬ within ⟨mid, stop⟩ e := by
        simp only [within_iff] at inside ⊢
        omega
      simp [inside, outside]
    · simp [inside]
  rw [second]
  exact filter_within_halves es.ordered le le' apart

theorem remaining_halves (le : start ≤ mid) (le' : mid ≤ stop)
    (apart : ∀ e ∈ es.entries, ¬ (e.1.start < mid ∧ mid < e.1.stop)) :
    (es.extract source ⟨start, stop⟩).2 =
      ((es.extract source ⟨start, mid⟩).2.extract source ⟨mid, stop⟩).2 := by
  apply ext
  show es.entries.filter (fun e => !within ⟨start, stop⟩ e) =
    (es.entries.filter fun e => !within ⟨start, mid⟩ e).filter fun e => !within ⟨mid, stop⟩ e
  rw [List.filter_filter]
  apply List.filter_congr
  intro e member
  rw [within_halves le le' (apart e member), Bool.not_or, Bool.and_comm]

/-- A range that is read up to a place where no pending entry lies across, and then from
there on, reads as it does in one go, and leaves the same entries. -/
theorem extract_extract (forward : es.Forward) (placed : es.Placed source)
    (le : start ≤ mid) (le' : mid ≤ stop) (front : source.Place start)
    (middle : source.Place mid) (behind : source.Place stop)
    (apart : ∀ e ∈ es.entries, ¬ (e.1.start < mid ∧ mid < e.1.stop)) :
    let first := es.extract source ⟨start, mid⟩
    let second := first.2.extract source ⟨mid, stop⟩
    es.extract source ⟨start, stop⟩ = (first.1 ++ second.1, second.2) := by
  intro first second
  have pending : ∀ e ∈ first.2.entries, e ∈ es.entries := fun e member => (mem_extract.1 member).1
  have left : Fills source start (kept start (es.taken ⟨start, mid⟩)) mid first.1 :=
    @fills_extract source ⟨start, mid⟩ es forward placed le front middle
  have right : Fills source mid (kept mid (first.2.taken ⟨mid, stop⟩)) stop second.1 :=
    @fills_extract source ⟨mid, stop⟩ first.2 (fun e member => forward e (pending e member))
      (fun e member => placed e (pending e member)) le' middle behind
  have whole : kept start (es.taken ⟨start, stop⟩) =
      kept start (es.taken ⟨start, mid⟩) ++ kept mid (first.2.taken ⟨mid, stop⟩) := by
    rw [taken_halves le le' apart]
    apply kept_append le
    · intro e member
      exact (mem_taken.1 member).2.2.2
    · intro e member
      exact (mem_taken.1 member).2.1
  apply Prod.ext
  · calc (es.extract source ⟨start, stop⟩).1
        = substituted source stop start (kept start (es.taken ⟨start, stop⟩)) := fill_eq_kept
      _ = first.1 ++ second.1 := by rw [whole, (left.append right).substituted]
  · exact remaining_halves le le' apart

/-- Two entries that overlap in part before the product, and text to be put in where the
product starts. -/
def overlappingEdits : Edits :=
  (((empty.insert ⟨0, 5⟩ "u".toList).insert ⟨4, 7⟩ "v".toList).insert ⟨8, 13⟩ "PRODUCT".toList).insertAt
    8 "!".toList

theorem extract_extract_overlapping :
    (overlappingEdits.extract sumSource ⟨0, 8⟩).1 = "u + ".toList ∧
      overlappingEdits.extract sumSource ⟨0, 14⟩ =
        ((overlappingEdits.extract sumSource ⟨0, 8⟩).1 ++
          ((overlappingEdits.extract sumSource ⟨0, 8⟩).2.extract sumSource ⟨8, 14⟩).1,
          ((overlappingEdits.extract sumSource ⟨0, 8⟩).2.extract sumSource ⟨8, 14⟩).2) := by
  have bounds : ∀ e ∈ overlappingEdits.entries,
      e.1.start ≤ e.1.stop ∧ e.1.start ≤ 14 ∧ e.1.stop ≤ 14 := by decide
  constructor
  · decide
  · exact extract_extract (fun e member => (bounds e member).1)
      (fun e member => ⟨sumSource_place (bounds e member).2.1, sumSource_place (bounds e member).2.2⟩)
      (by decide) (by decide) (sumSource_place (by decide)) (sumSource_place (by decide))
      (sumSource_place (by decide)) (by decide)

end Ranges
end Edits
end SafeSubset
