import SafeSubset.Proofs.Edits.Histories
import SafeSubset.Proofs.Edits.Nesting
import SafeSubset.Proofs.Source.Nest

/-! Pending edits of which none reaches into another. What holds at every call of a
sequence is put together from what holds at the calls of its parts. -/
namespace SafeSubset

namespace Span

variable {a b : Span} {offset : Nat}

/-- Neither span contains the other, and they do not overlap in part. -/
def Unrelated (a b : Span) : Prop := ¬ a.PartiallyOverlaps b ∧ ¬ a.Contains b ∧ ¬ b.Contains a

/-- A stretch is unrelated to what starts before it and does not reach into it. -/
theorem unrelated_behind (wide : a.start < a.stop) (starts : b.start < a.start)
    (stops : b.stop ≤ a.start) : a.Unrelated b := by
  simp only [Unrelated, PartiallyOverlaps, Contains]
  omega

/-- A place is unrelated to a span that it does not touch. -/
theorem unrelated_point (forward : a.start ≤ a.stop) (clear : a.stop < offset ∨ offset < a.start) :
    (point offset).Unrelated a := by
  simp only [Unrelated, PartiallyOverlaps, Contains, point]
  omega

end Span

namespace Edits

variable {source : Source} {es ds : Edits} {calls later : List Call} {c : Call} {lo hi : Nat}

/-- No two pending edits for stretches share a byte, and nothing is to be put in inside
one of them. -/
structure Apart (es : Edits) : Prop where
  forward : es.Forward
  stretches : ∀ d ∈ es.entries, ∀ e ∈ es.entries, d.1.isEmpty = false → e.1.isEmpty = false →
    d ≠ e → d.1.Apart e.1
  places : ∀ d ∈ es.entries, ∀ e ∈ es.entries, e.1.isEmpty = true →
    ¬ (d.1.start < e.1.start ∧ e.1.start < d.1.stop)

theorem Apart.subset (apart : es.Apart) (fewer : ∀ e ∈ ds.entries, e ∈ es.entries) : ds.Apart where
  forward e member := apart.forward e (fewer e member)
  stretches d hd e he := apart.stretches d (fewer d hd) e (fewer e he)
  places d hd e he := apart.places d (fewer d hd) e (fewer e he)

/-- Edits one behind the other do not reach into one another. -/
theorem apart_of_arranged (arranged : Arranged lo (es.entries.map Prod.fst) hi) : es.Apart := by
  have symmetric : Std.Symm fun d e : Edit => d.1.Apart e.1 := ⟨fun _ _ => Or.symm⟩
  have rows : es.entries.Pairwise fun d e => d.1.Apart e.1 :=
    (List.pairwise_map.1 arranged.pairwise).imp .inl
  constructor
  · intro e member
    exact (arranged.bounds (List.mem_map_of_mem member)).2.2.1
  · intro d hd e he _ _ other
    exact rows.forall hd he other
  · rintro d hd e he empty ⟨behind, before⟩
    have empty : e.1.start = e.1.stop := by simpa [Span.isEmpty] using empty
    have other : d ≠ e := by
      rintro rfl
      omega
    rcases rows.forall hd he other with _ | _ <;> omega

/-- Edits that do not reach into one another are nested. -/
theorem Apart.isNested (apart : es.Apart) : es.isNested = true := by
  rw [isNested_iff_pairwise apart.forward, List.pairwise_map]
  apply List.pairwise_of_forall_mem_list
  intro d hd e he overlap
  have wide : d.1.isEmpty = false := by
    rw [← Bool.not_eq_true]
    exact fun empty => Span.not_partiallyOverlaps_of_isEmpty empty overlap
  have wide' : e.1.isEmpty = false := by
    rw [← Bool.not_eq_true]
    exact fun empty => Span.not_partiallyOverlaps_of_isEmpty empty overlap.symm
  obtain ⟨starts, reaches, outside, -⟩ := overlap
  have other : d ≠ e := by
    rintro rfl
    exact outside ⟨Nat.le_refl _, Nat.le_refl _⟩
  rcases apart.stretches d hd e he wide wide' other with _ | _ <;> omega

/-- Nothing is dropped where edits that follow one another are put out. -/
theorem kept_of_arranged {es : List Edit} (arranged : Arranged lo (es.map Prod.fst) hi) :
    kept lo es = es := by
  induction es generalizing lo with
  | nil => rfl
  | cons e es ih =>
      obtain ⟨-⟩ | ⟨from_le, -, -, rest⟩ := arranged
      simp only [kept, if_neg (Nat.not_lt.2 from_le), ih rest]

/-- Reading a range puts out all that is pending, if that lies in the range in a row. -/
theorem emitted_of_arranged {range : Span}
    (arranged : Arranged range.start (es.entries.map Prod.fst) range.stop) :
    (Call.extract range).emitted es = es.entries ∧
      ((Call.extract range).apply source es).entries = [] := by
  have around : Around range es [] es.entries [] :=
    ⟨by simp, ⟨range.start, .nil (Nat.le_refl _)⟩, arranged, range.stop, .nil (Nat.le_refl _)⟩
  constructor
  · have taken : es.taken range = es.entries := around.filter_within
    rw [Call.emitted, Call.portions, entries_portions, taken]
    exact kept_of_arranged arranged
  · exact around.filter_outside

section Calls

/-- The span for which a call records an edit. -/
def Call.recorded? : Call → Option Span
  | .insert s _ => some s
  | .insertAt offset _ => some (.point offset)
  | .consume _ | .extract _ => none

/-- The pending edits do not reach into one another, and a call records none that is
related to one of them. -/
structure Fits (es : Edits) (c : Call) : Prop where
  apart : es.Apart
  unrelated : ∀ s ∈ c.recorded?, ∀ e ∈ es.entries, s.Unrelated e.1

/-- Each of some calls fits what is pending when it is made. -/
def Fitting (source : Source) (es : Edits) (calls : List Call) : Prop :=
  ∀ before call behind, calls = before ++ call :: behind → Fits (run source es before) call

theorem fitting_nil : Fitting source es [] := by
  intro before call behind same
  simp at same

theorem fitting_cons : Fitting source es (c :: calls) ↔
    Fits es c ∧ Fitting source (c.apply source es) calls := by
  constructor
  · intro fitting
    refine ⟨fitting [] c calls rfl, ?_⟩
    intro before call behind same
    exact fitting (c :: before) call behind (by rw [same, List.cons_append])
  · rintro ⟨first, others⟩ before call behind same
    cases before with
    | nil =>
        obtain ⟨rfl, rfl⟩ := List.cons.inj same
        exact first
    | cons d before =>
        obtain ⟨rfl, rest⟩ := List.cons.inj same
        exact others before call behind rest

theorem fitting_append : Fitting source es (calls ++ later) ↔
    Fitting source es calls ∧ Fitting source (run source es calls) later := by
  induction calls generalizing es with
  | nil => simp [fitting_nil, run]
  | cons c calls ih => rw [List.cons_append, fitting_cons, fitting_cons, ih, and_assoc]; rfl

/-- Where all calls fit and what is pending in the end is apart, it is so at every moment. -/
theorem Fitting.apart (fitting : Fitting source es calls) (last : (run source es calls).Apart)
    {before behind : List Call} (same : calls = before ++ behind) : (run source es before).Apart := by
  cases behind with
  | nil =>
      rw [List.append_nil] at same
      exact same ▸ last
  | cons call behind => exact (fitting before call behind same).apart

end Calls

end Edits
end SafeSubset
