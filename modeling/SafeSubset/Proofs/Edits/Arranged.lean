import SafeSubset.Edits.Pending

/-! Spans one behind the other. Pending edits that are arranged so are taken up
by range, and none of them is dropped. -/
namespace SafeSubset

/-- Spans that follow one another between two offsets, each of which starts
before the second one. -/
inductive Arranged : Nat → List Span → Nat → Prop where
  | nil {lo hi : Nat} (le : lo ≤ hi) : Arranged lo [] hi
  | cons {lo hi : Nat} {s : Span} {ss : List Span} (from_le : lo ≤ s.start) (starts : s.start < hi)
      (forward : s.start ≤ s.stop) (rest : Arranged s.stop ss hi) : Arranged lo (s :: ss) hi

namespace Arranged

variable {lo mid hi : Nat} {ss us : List Span} {s : Span}

theorem le (h : Arranged lo ss hi) : lo ≤ hi := by
  cases h with
  | nil le => exact le
  | cons from_le starts => omega

theorem left {lo' : Nat} (h : Arranged lo ss hi) (le : lo' ≤ lo) : Arranged lo' ss hi := by
  cases h with
  | nil le' => exact .nil (by omega)
  | cons from_le starts forward rest => exact .cons (by omega) starts forward rest

theorem right {hi' : Nat} (h : Arranged lo ss hi) (le : hi ≤ hi') : Arranged lo ss hi' := by
  induction h with
  | nil le' => exact .nil (by omega)
  | cons from_le starts forward rest ih => exact .cons from_le (by omega) forward (ih le)

theorem append (first : Arranged lo ss mid) (second : Arranged mid us hi) :
    Arranged lo (ss ++ us) hi := by
  induction first with
  | nil le => exact second.left le
  | cons from_le starts forward rest ih =>
      have := second.le
      exact .cons from_le (by omega) forward (ih second)

theorem bounds (h : Arranged lo ss hi) (member : s ∈ ss) :
    lo ≤ s.start ∧ s.start < hi ∧ s.start ≤ s.stop ∧ s.stop ≤ hi := by
  induction h with
  | nil => cases member
  | cons from_le starts forward rest ih =>
      have := rest.le
      rcases List.mem_cons.1 member with rfl | member
      · exact ⟨from_le, starts, forward, this⟩
      · obtain ⟨behind, inside⟩ := ih member
        exact ⟨by omega, inside⟩

theorem single (from_le : lo ≤ s.start) (starts : s.start < s.stop) (le : s.stop ≤ hi) :
    Arranged lo [s] hi :=
  .cons from_le (by omega) (by omega) (.nil le)

theorem pair {a b : Span} (h : Arranged lo [a, b] hi) : lo ≤ a.start ∧ a.stop ≤ b.start := by
  cases h with
  | cons from_le _ _ rest =>
      cases rest with
      | cons from_le' => exact ⟨from_le, from_le'⟩

/-- What is arranged inside each of some spans is arranged. -/
theorem flatMap {ε : Type} {place : ε → Span} {inner : ε → List Span} {es : List ε}
    (h : Arranged lo (es.map place) hi)
    (inside : ∀ e ∈ es, Arranged (place e).start (inner e) (place e).stop) :
    Arranged lo (es.flatMap inner) hi := by
  induction es generalizing lo with
  | nil =>
      cases h
      exact .nil ‹_›
  | cons e es ih =>
      obtain ⟨-⟩ | ⟨from_le, -, -, rest⟩ := h
      exact ((inside e List.mem_cons_self).left from_le).append
        (ih rest fun d hd => inside d (List.mem_cons_of_mem _ hd))

end Arranged

namespace Edits

variable {source : Source} {pre inside post es : List Edit} {s : Span} {offset lo hi : Nat}

/-- The source from an offset to a stop with the given edits in place, each of
which starts behind the one before. -/
def substituted (source : Source) (stop : Nat) : (offset : Nat) → List Edit → Source
  | offset, [] => Source.slice source ⟨offset, stop⟩
  | offset, e :: es =>
      Source.slice source ⟨offset, e.1.start⟩ ++ e.2 ++ substituted source stop e.1.stop es

theorem fill_eq_substituted {stop : Nat} (h : Arranged offset (es.map Prod.fst) hi) :
    fill source stop offset es = substituted source stop offset es := by
  induction es generalizing offset with
  | nil => rfl
  | cons e es ih =>
      obtain ⟨-⟩ | ⟨from_le, -, -, rest⟩ := h
      simp only [fill, substituted, if_neg (Nat.not_lt.2 from_le), ih rest]

theorem within_of_arranged {e : Edit} (h : Arranged s.start (es.map Prod.fst) s.stop)
    (member : e ∈ es) : within s e = true := by
  obtain ⟨le, starts, -, stops⟩ := h.bounds (List.mem_map_of_mem member)
  simp [within, le, starts, stops]

theorem not_within_before {e : Edit} (h : Arranged lo (es.map Prod.fst) s.start)
    (member : e ∈ es) : within s e = false := by
  obtain ⟨-, starts, -, -⟩ := h.bounds (List.mem_map_of_mem member)
  simp [within]
  omega

theorem not_within_behind {e : Edit} (h : Arranged s.stop (es.map Prod.fst) hi)
    (member : e ∈ es) : within s e = false := by
  obtain ⟨le, -, -, -⟩ := h.bounds (List.mem_map_of_mem member)
  simp [within]
  omega

/-- Three stretches of pending edits: those before a span, in it, and behind. -/
structure Around (s : Span) (es : Edits) (pre inside post : List Edit) : Prop where
  entries : es.entries = pre ++ inside ++ post
  before : ∃ lo, Arranged lo (pre.map Prod.fst) s.start
  within : Arranged s.start (inside.map Prod.fst) s.stop
  behind : ∃ hi, Arranged s.stop (post.map Prod.fst) hi

variable {pending : Edits}

theorem Around.filter_within (around : Around s pending pre inside post) :
    pending.entries.filter (Edits.within s) = inside := by
  obtain ⟨entries, ⟨_, before⟩, within, _, behind⟩ := around
  have none : ∀ es : List Edit, (∀ e ∈ es, Edits.within s e = false) →
      es.filter (Edits.within s) = [] := fun es h => by simpa using h
  rw [entries, List.filter_append, List.filter_append,
    none pre fun _ => not_within_before before, none post fun _ => not_within_behind behind,
    List.filter_eq_self.2 fun _ => within_of_arranged within]
  simp

theorem Around.filter_outside (around : Around s pending pre inside post) :
    pending.entries.filter (fun e => !Edits.within s e) = pre ++ post := by
  obtain ⟨entries, ⟨_, before⟩, within, _, behind⟩ := around
  have some : ∀ es : List Edit, (∀ e ∈ es, Edits.within s e = false) →
      es.filter (fun e => !Edits.within s e) = es := fun es h =>
    List.filter_eq_self.2 fun e member => by rw [h e member]; rfl
  rw [entries, List.filter_append, List.filter_append,
    some pre fun _ => not_within_before before, some post fun _ => not_within_behind behind,
    List.filter_eq_nil_iff.2 fun e member => by simp [within_of_arranged within member]]
  simp

/-- Reading a span takes up the edits in it, all of them, and leaves the rest. -/
theorem Around.extract (around : Around s pending pre inside post) :
    (pending.extract source s).1 = substituted source s.stop s.start inside ∧
      (pending.extract source s).2.entries = pre ++ post := by
  refine ⟨?_, around.filter_outside⟩
  have taken : (pending.filter (Edits.within s)).entries = inside := around.filter_within
  simp only [Edits.extract, taken]
  exact fill_eq_substituted around.within

theorem get?_eq_none (h : ∀ e ∈ pending.entries, e.1 ≠ s) : pending.get? s = none := by
  refine List.lookup_eq_none_iff.2 fun e member => ?_
  simpa using (h e member).symm

theorem ne_before {e : Edit} (h : Arranged lo (es.map Prod.fst) s.start) (member : e ∈ es) :
    e.1 ≠ s := by
  rintro rfl
  obtain ⟨-, starts, -⟩ := h.bounds (List.mem_map_of_mem member)
  omega

theorem ne_behind {e : Edit} (wide : s.start < s.stop) (h : Arranged s.stop (es.map Prod.fst) hi)
    (member : e ∈ es) : e.1 ≠ s := by
  rintro rfl
  obtain ⟨le, -⟩ := h.bounds (List.mem_map_of_mem member)
  omega

/-- A span without an edit of its own reads as its source with the edits in it. -/
theorem Around.consume_source (around : Around s pending pre inside post) (wide : s.start < s.stop)
    (own : ∀ e ∈ inside, e.1 ≠ s) :
    pending.contains s = false ∧
      (pending.consume source s).1 = substituted source s.stop s.start inside ∧
      (pending.consume source s).2.entries = pre ++ post := by
  have missing : pending.get? s = none := by
    refine get?_eq_none fun e member => ?_
    obtain ⟨_, before⟩ := around.before
    obtain ⟨_, behind⟩ := around.behind
    rw [around.entries, List.mem_append, List.mem_append] at member
    rcases member with (member | member) | member
    · exact ne_before before member
    · exact own e member
    · exact ne_behind wide behind member
  unfold Edits.contains Edits.consume
  rw [missing]
  exact ⟨rfl, around.extract⟩

/-- A span with an edit of its own reads as the text of that. -/
theorem Around.consume_edit {text : Source} (around : Around s pending pre [(s, text)] post) :
    pending.contains s = true ∧ (pending.consume source s).1 = text ∧
      (pending.consume source s).2.entries = pre ++ post := by
  obtain ⟨entries, ⟨_, before⟩, within, _, behind⟩ := around
  have wide : s.start < s.stop := by
    cases within
    assumption
  have found : pending.get? s = some text := by
    unfold Edits.get?
    rw [entries, List.append_assoc, List.lookup_append,
      List.lookup_eq_none_iff.2 fun e member => by simpa using (ne_before before member).symm]
    simp
  unfold Edits.contains Edits.consume
  rw [found]
  refine ⟨rfl, rfl, ?_⟩
  show pending.entries.filter _ = _
  rw [entries, List.filter_append, List.filter_append,
    List.filter_eq_self.2 fun e member => by simpa using ne_before before member,
    (List.filter_eq_self (l := post)).2 fun e member => by simpa using ne_behind wide behind member]
  simp

theorem insertEntry_between (text : Source) (before : ∀ e ∈ pre, e.1.Before s)
    (behind : ∀ e ∈ post, s.Before e.1) :
    insertEntry s text (pre ++ post) = pre ++ (s, text) :: post := by
  induction pre with
  | nil =>
      cases post with
      | nil => rfl
      | cons e es =>
          have first := behind e List.mem_cons_self
          have other : s ≠ e.1 := fun same => Span.Before.irrefl s (by rwa [← same] at first)
          simp [insertEntry, other, first]
  | cons e es ih =>
      have first := before e List.mem_cons_self
      have other : s ≠ e.1 := fun same => Span.Before.irrefl s (by rwa [← same] at first)
      have later : ¬ s.Before e.1 := fun h => Span.Before.irrefl s (h.trans first)
      simp [insertEntry, other, later, ih fun d hd => before d (List.mem_cons_of_mem _ hd)]

/-- Text at a place where there is none goes between what starts before it and
what starts there or behind. -/
theorem insertAt_between (text : Source) (entries : pending.entries = pre ++ post)
    (before : ∀ e ∈ pre, e.1.start < offset)
    (behind : ∀ e ∈ post, offset ≤ e.1.start ∧ e.1.start < e.1.stop) :
    (pending.insertAt offset text).entries = pre ++ (.point offset, text) :: post := by
  have missing : pending.get? (.point offset) = none := by
    refine get?_eq_none fun e member => ?_
    rintro same
    rw [entries, List.mem_append] at member
    rcases member with member | member
    · have := before e member
      simp [same, Span.point] at this
    · have := (behind e member).2
      simp [same, Span.point] at this
  simp only [insertAt, missing, Option.getD_none, List.nil_append, Edits.insert, entries]
  refine insertEntry_between _ (fun e member => .inl (before e member)) fun e member => ?_
  obtain ⟨le, wide⟩ := behind e member
  have rank : e.1.rank = 1 := by simp [Span.rank, Span.isEmpty, Nat.ne_of_lt wide]
  have empty : (Span.point offset).rank = 0 := by simp [Span.rank, Span.isEmpty, Span.point]
  rcases Nat.lt_or_eq_of_le le with lt | eq
  · exact .inl lt
  · exact .inr ⟨eq, .inl (by omega)⟩

/-- An edit behind all others goes to the end. -/
theorem insert_last {text : Source} (before : ∀ e ∈ pending.entries, e.1.start < s.start) :
    (pending.insert s text).entries = pending.entries ++ [(s, text)] := by
  have last : insertEntry s text (pending.entries ++ []) = pending.entries ++ [(s, text)] :=
    insertEntry_between text (fun e member => .inl (before e member)) (by simp)
  rwa [List.append_nil] at last

end Edits
end SafeSubset
