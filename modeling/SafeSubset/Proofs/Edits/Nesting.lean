import Mathlib.Data.List.Pairwise
import SafeSubset.Proofs.Edits.Outermost

/-! Whether pending edits are nested. One pass over their spans in order keeps the spans
that are still open, and compares the next one with the innermost of them alone. The open
spans stop one behind the other, so a span that stops inside the innermost stops inside
all of them. -/
namespace SafeSubset

namespace Span

variable {a b : Span}

/-- Of two spans in order, the second sticks out of the first where they overlap in part. -/
theorem partiallyOverlaps_iff (before : a.Before b) (forward : a.start ≤ a.stop) :
    a.PartiallyOverlaps b ↔ b.start < a.stop ∧ a.stop < b.stop := by
  rw [before_iff] at before
  simp only [PartiallyOverlaps, Contains]
  omega

theorem not_partiallyOverlaps_self (a : Span) : ¬ a.PartiallyOverlaps a := by
  rintro ⟨-, -, apart, -⟩
  exact apart ⟨Nat.le_refl _, Nat.le_refl _⟩

theorem PartiallyOverlaps.symm (h : a.PartiallyOverlaps b) : b.PartiallyOverlaps a := by
  obtain ⟨starts, reaches, outside, inside⟩ := h
  exact ⟨reaches, starts, inside, outside⟩

/-- A place lies in a span, or apart from it. -/
theorem not_partiallyOverlaps_of_isEmpty (empty : a.isEmpty = true) : ¬ a.PartiallyOverlaps b := by
  have empty : a.start = a.stop := by simpa [isEmpty] using empty
  simp only [PartiallyOverlaps, Contains]
  omega

end Span

namespace Edits

variable {opened ss : List Span} {s : Span}

/-- Spans that are open before some others, the innermost first: they come before those, and
none of them stops behind one further out. -/
structure Opened (opened ss : List Span) : Prop where
  before : ∀ o ∈ opened, ∀ s ∈ ss, o.Before s
  forward : ∀ o ∈ opened, o.start ≤ o.stop
  outwards : opened.Pairwise fun inner outer => inner.stop ≤ outer.stop

/-- The spans that are still open where another one starts. -/
def around (opened : List Span) (s : Span) : List Span :=
  opened.dropWhile fun o => o.stop ≤ s.start

theorem mem_around (h : Opened opened (s :: ss)) {o : Span} :
    o ∈ around opened s ↔ o ∈ opened ∧ s.start < o.stop := by
  obtain ⟨-, -, outwards⟩ := h
  induction opened with
  | nil => simp [around]
  | cons inner outer ih =>
      obtain ⟨behind, rest⟩ := List.pairwise_cons.1 outwards
      by_cases ends : inner.stop ≤ s.start
      · have same : around (inner :: outer) s = around outer s := by simp [around, ends]
        rw [same, ih rest, List.mem_cons]
        constructor
        · rintro ⟨member, reaches⟩
          exact ⟨.inr member, reaches⟩
        · rintro ⟨rfl | member, reaches⟩
          · omega
          · exact ⟨member, reaches⟩
      · have same : around (inner :: outer) s = inner :: outer := by simp [around, ends]
        rw [same]
        refine ⟨fun member => ⟨member, ?_⟩, And.left⟩
        rcases List.mem_cons.1 member with rfl | member
        · omega
        · have := behind o member
          omega

/-- Whether a span sticks out of an open one can be seen from the innermost. -/
theorem sticksOut_iff (h : Opened opened (s :: ss)) :
    ((around opened s).head?.any fun o => o.stop < s.stop) = true ↔
      ∃ o ∈ opened, o.PartiallyOverlaps s := by
  have overlaps : ∀ o ∈ opened, (o.PartiallyOverlaps s ↔ s.start < o.stop ∧ o.stop < s.stop) :=
    fun o member => Span.partiallyOverlaps_iff (h.before o member s List.mem_cons_self)
      (h.forward o member)
  have ordered : (around opened s).Pairwise fun inner outer => inner.stop ≤ outer.stop :=
    h.outwards.sublist (List.dropWhile_sublist _)
  have known := fun o => @mem_around opened ss s h o
  cases open_spans : around opened s with
  | nil =>
      rw [open_spans] at known
      simp only [List.head?_nil, Option.any_none, Bool.false_eq_true, false_iff]
      rintro ⟨o, member, overlap⟩
      exact List.not_mem_nil ((known o).2 ⟨member, ((overlaps o member).1 overlap).1⟩)
  | cons inner outer =>
      rw [open_spans] at known ordered
      obtain ⟨member, reaches⟩ := (known inner).1 List.mem_cons_self
      simp only [List.head?_cons, Option.any_some, decide_eq_true_eq]
      constructor
      · intro stops
        exact ⟨inner, member, (overlaps inner member).2 ⟨reaches, stops⟩⟩
      · rintro ⟨o, member, overlap⟩
        obtain ⟨reaches, stops⟩ := (overlaps o member).1 overlap
        rcases List.mem_cons.1 ((known o).2 ⟨member, reaches⟩) with rfl | further
        · exact stops
        · have := (List.pairwise_cons.1 ordered).1 o further
          omega

/-- A span that sticks out of none of those open is open itself before what follows. -/
theorem Opened.push (h : Opened opened (s :: ss)) (forward : s.start ≤ s.stop)
    (before : ∀ u ∈ ss, s.Before u) (inside : ∀ o ∈ opened, ¬ o.PartiallyOverlaps s) :
    Opened (s :: around opened s) ss := by
  have known : ∀ o ∈ around opened s, o ∈ opened ∧ s.start < o.stop := fun o member =>
    (mem_around h).1 member
  constructor
  · intro o member u later
    rcases List.mem_cons.1 member with rfl | member
    · exact before u later
    · exact h.before o (known o member).1 u (List.mem_cons_of_mem s later)
  · intro o member
    rcases List.mem_cons.1 member with rfl | member
    · exact forward
    · exact h.forward o (known o member).1
  · refine List.pairwise_cons.2 ⟨?_, h.outwards.sublist (List.dropWhile_sublist _)⟩
    intro o member
    obtain ⟨pending, reaches⟩ := known o member
    have apart := inside o pending
    rw [Span.partiallyOverlaps_iff (h.before o pending s List.mem_cons_self)
      (h.forward o pending)] at apart
    omega

/-- The pass over spans in order, with some already open, finds whether any two of them
overlap in part, or one of them and an open one. -/
theorem nestedFrom_iff (h : Opened opened ss) (ordered : ss.Pairwise Span.Before)
    (forward : ∀ s ∈ ss, s.start ≤ s.stop) :
    nestedFrom opened ss = true ↔
      (ss.Pairwise fun a b => ¬ a.PartiallyOverlaps b) ∧
        ∀ o ∈ opened, ∀ s ∈ ss, ¬ o.PartiallyOverlaps s := by
  induction ss generalizing opened with
  | nil => simp [nestedFrom]
  | cons s ss ih =>
      obtain ⟨before, rest⟩ := List.pairwise_cons.1 ordered
      have out := sticksOut_iff h
      have pass : nestedFrom opened (s :: ss) =
          if (around opened s).head?.any (fun o => o.stop < s.stop) then false
          else nestedFrom (s :: around opened s) ss := rfl
      by_cases inside : ∀ o ∈ opened, ¬ o.PartiallyOverlaps s
      · have none : ¬ ((around opened s).head?.any fun o => o.stop < s.stop) = true := by
          rw [out]
          rintro ⟨o, member, overlap⟩
          exact inside o member overlap
        have pushed := h.push (forward s List.mem_cons_self) before inside
        rw [pass, if_neg none, ih pushed rest fun u member => forward u (List.mem_cons_of_mem s member)]
        constructor
        · rintro ⟨apart, clear⟩
          refine ⟨List.pairwise_cons.2 ⟨clear s List.mem_cons_self, apart⟩, ?_⟩
          intro o member u later
          rcases List.mem_cons.1 later with rfl | later
          · exact inside o member
          · by_cases reaches : s.start < o.stop
            · have still := (mem_around h).2 ⟨member, reaches⟩
              exact clear o (List.mem_cons_of_mem s still) u later
            · -- An open span that stops before this one stops before all that follow.
              have start := (before u later).start_le
              rw [Span.partiallyOverlaps_iff (h.before o member u (List.mem_cons_of_mem s later))
                (h.forward o member)]
              omega
        · rintro ⟨apart, clear⟩
          obtain ⟨first, apart⟩ := List.pairwise_cons.1 apart
          refine ⟨apart, ?_⟩
          intro o member u later
          rcases List.mem_cons.1 member with rfl | member
          · exact first u later
          · exact clear o ((mem_around h).1 member).1 u (List.mem_cons_of_mem s later)
      · obtain ⟨o, member, overlap⟩ : ∃ o ∈ opened, o.PartiallyOverlaps s := by
          simpa using inside
        rw [pass, if_pos (out.2 ⟨o, member, overlap⟩)]
        simp only [Bool.false_eq_true, false_iff, not_and]
        intro _ clear
        exact clear o member s List.mem_cons_self overlap

variable {es : Edits}

/-- The pass over all pending edits leaves places out, which overlap nothing in part. -/
theorem isNested_iff_pairwise (forward : es.Forward) :
    es.isNested = true ↔ (es.entries.map Prod.fst).Pairwise fun a b => ¬ a.PartiallyOverlaps b := by
  have ordered : (es.entries.map Prod.fst).Pairwise Span.Before := List.pairwise_map.2 es.ordered
  have spans : ∀ s ∈ es.entries.map Prod.fst, s.start ≤ s.stop := by
    intro s member
    obtain ⟨e, pending, rfl⟩ := List.mem_map.1 member
    exact forward e pending
  have none : Opened [] ((es.entries.map Prod.fst).filter fun s => !s.isEmpty) :=
    ⟨by simp, by simp, .nil⟩
  rw [isNested, nestedFrom_iff none (ordered.filter _) fun s member => spans s (List.mem_filter.1 member).1,
    List.pairwise_filter]
  constructor
  · rintro ⟨apart, -⟩
    apply apart.imp
    intro a b apart overlap
    refine apart ?_ ?_ overlap
    · by_contra empty
      exact Span.not_partiallyOverlaps_of_isEmpty (by simpa using empty) overlap
    · by_contra empty
      exact Span.not_partiallyOverlaps_of_isEmpty (by simpa using empty) overlap.symm
  · intro apart
    exact ⟨apart.imp fun apart _ _ => apart, by simp⟩

/-- The pass over pending edits finds that they are nested exactly where no two of them
overlap in part. -/
theorem isNested_iff (forward : es.Forward) :
    es.isNested = true ↔ ∀ d ∈ es.entries, ∀ e ∈ es.entries, ¬ d.1.PartiallyOverlaps e.1 := by
  rw [isNested_iff_pairwise forward, List.pairwise_map]
  constructor
  · intro apart
    have symmetric : Std.Symm fun d e : Edit => ¬ d.1.PartiallyOverlaps e.1 :=
      ⟨fun d e clear overlap => clear overlap.symm⟩
    exact apart.forall_of_forall fun e _ => Span.not_partiallyOverlaps_self e.1
  · exact List.pairwise_of_forall_mem_list

/-- A sum with its second term and places at its ends is nested; two spans of which one
starts in the other and stops behind it are not. -/
theorem isNested_iff_sum :
    (sumEdits.isNested = true ∧ ∀ d ∈ sumEdits.entries, ∀ e ∈ sumEdits.entries, ¬ d.1.PartiallyOverlaps e.1) ∧
      overlappingEdits.isNested = false ∧
        ∃ d ∈ overlappingEdits.entries, ∃ e ∈ overlappingEdits.entries, d.1.PartiallyOverlaps e.1 := by
  have forward : sumEdits.Forward := by
    unfold Forward
    decide
  have forward' : overlappingEdits.Forward := by
    unfold Forward
    decide
  have nested : sumEdits.isNested = true := by decide
  have crossed : ¬ overlappingEdits.isNested = true := by decide
  refine ⟨⟨nested, (isNested_iff forward).1 nested⟩, by simpa using crossed, ?_⟩
  rw [isNested_iff forward'] at crossed
  simpa using crossed

end Edits
end SafeSubset
