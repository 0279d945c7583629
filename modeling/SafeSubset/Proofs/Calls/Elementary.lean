import SafeSubset.Proofs.Calls.Search

/-! A search comes to the successors of an edge only once. They are tried in ascending
order, so whatever comes before an edge on the trail among the successors of one edge has
been left behind. A trail that comes to the same successors again thus meets that edge
first, and the search ends there with a cycle. -/
namespace SafeSubset.Calls

variable {successors : Nat → List Nat} {unmet : List Nat} {trail rest : Trail}

/-- Two edges that come next behind one edge. -/
def Siblings (successors : Nat → List Nat) (a b : Nat) : Prop :=
  ∃ n, a ∈ successors n ∧ b ∈ successors n

theorem Siblings.symm {a b : Nat} (h : Siblings successors a b) : Siblings successors b a := by
  obtain ⟨n, first, second⟩ := h
  exact ⟨n, second, first⟩

/-- Successors as a graph has them: they ascend, and edges with one successor in common
have all in common. -/
structure Fanned (successors : Nat → List Nat) : Prop where
  ascending : ∀ n, (successors n).Pairwise (· < ·)
  shared : ∀ m n s, s ∈ successors m → s ∈ successors n → successors m = successors n

namespace Trail

theorem edges_append (t u : Trail) : edges (t ++ u) = edges t ++ edges u := List.map_append

/-- Where a trail goes on: behind edges that it goes back by, and behind successors that
have been met and are not on it. -/
theorem next_split {next : Nat} (found : trail.next? unmet = some (next, rest)) :
    ∃ ended edge passed untried outer,
      trail = ended ++ (edge, passed ++ next :: untried) :: outer ∧ rest = (edge, untried) :: outer ∧
        (∀ s ∈ passed, s ∉ edges rest ∧ s ∉ unmet) ∧ (next ∈ edges rest ∨ next ∈ unmet) := by
  induction trail with
  | nil => cases found
  | cons frame outer ih =>
      obtain ⟨edge, tries⟩ := frame
      obtain ⟨passed, next', untried, rfl, skipped, stop, result⟩ | ⟨-, result⟩ :=
        next?_cons unmet edge tries outer
      · rw [result] at found
        obtain ⟨rfl, rfl⟩ := Prod.mk.inj (Option.some.inj found)
        exact ⟨[], edge, passed, untried, outer, rfl, rfl, skipped, stop⟩
      · rw [result] at found
        obtain ⟨ended, edge', passed, untried, outer', rfl, tail⟩ := ih found
        exact ⟨(edge, tries) :: ended, edge', passed, untried, outer', rfl, tail⟩

end Trail

/-- Each successor that an edge of a trail has no longer to try has been met, and is not
on the trail up to that edge. -/
def Tried (successors : Nat → List Nat) (unmet : List Nat) : Trail → Prop
  | [] => True
  | (edge, untried) :: outer =>
      untried <:+ successors edge ∧
        (∀ s ∈ successors edge, s ∈ untried ∨ s ∉ unmet ∧ s ∉ edge :: Trail.edges outer) ∧
        Tried successors unmet outer

theorem Tried.back (ended : Trail) (h : Tried successors unmet (ended ++ trail)) :
    Tried successors unmet trail := by
  induction ended with
  | nil => exact h
  | cons frame ended ih => exact ih h.2.2

theorem Tried.fewer {fewer : List Nat} (h : Tried successors unmet trail) (sub : fewer ⊆ unmet) :
    Tried successors fewer trail := by
  induction trail with
  | nil => trivial
  | cons frame outer ih =>
      obtain ⟨suffix, met, tail⟩ := h
      refine ⟨suffix, ?_, ih tail⟩
      intro s successor
      exact (met s successor).imp_right fun ⟨old, off⟩ => ⟨fun new => old (sub new), off⟩

/-- Entering the next edge of a trail leaves behind what was passed over before it. -/
theorem Tried.enter {edge next : Nat} {passed untried : List Nat} {outer : Trail}
    (h : Tried successors unmet ((edge, passed ++ next :: untried) :: outer)) (fresh : unmet.Nodup)
    (skipped : ∀ s ∈ passed, s ∉ Trail.edges ((edge, untried) :: outer) ∧ s ∉ unmet)
    (off : next ∉ Trail.edges ((edge, untried) :: outer)) :
    Tried successors (unmet.erase next) ((next, successors next) :: (edge, untried) :: outer) := by
  obtain ⟨suffix, met, outerTried⟩ := h
  refine ⟨List.suffix_refl _, fun _ among => .inl among, ?_, ?_, outerTried.fewer List.erase_subset⟩
  · exact ((List.suffix_cons next untried).trans (List.suffix_append passed _)).trans suffix
  · intro s among
    rcases met s among with here | ⟨old, away⟩
    · rcases List.mem_append.1 here with here | here
      · obtain ⟨away, old⟩ := skipped s here
        exact .inr ⟨fun still => old (List.mem_of_mem_erase still), away⟩
      · rcases List.mem_cons.1 here with rfl | here
        · exact .inr ⟨fresh.not_mem_erase, off⟩
        · exact .inl here
    · exact .inr ⟨fun still => old (List.mem_of_mem_erase still), away⟩

/-- A search whose trail holds no two siblings: of those, each edge on it is the first that
has not been left behind. -/
structure Foremost (successors : Nat → List Nat) (unmet : List Nat) (trail : Trail) : Prop where
  fresh : unmet.Nodup
  tried : Tried successors unmet trail
  first : ∀ e ∈ trail.edges, ∀ n, e ∈ successors n → ∀ s ∈ successors n, s < e →
    s ∉ unmet ∧ s ∉ trail.edges
  apart : trail.edges.Pairwise fun a b => ¬ Siblings successors a b

/-- A search that begins with an edge, all siblings before which have been met. -/
theorem Foremost.start {start : Nat} (fresh : unmet.Nodup) (lowest : ∀ s ∈ unmet, start ≤ s) :
    Foremost successors (unmet.erase start) [(start, successors start)] where
  fresh := fresh.erase start
  tried := ⟨List.suffix_refl _, fun _ successor => .inl successor, trivial⟩
  first := by
    intro e onTrail n _ s _ lt
    obtain rfl : e = start := by simpa [Trail.edges] using onTrail
    constructor
    · intro new
      have le := lowest s (List.mem_of_mem_erase new)
      omega
    · intro same
      obtain rfl : s = e := by simpa [Trail.edges] using same
      exact Nat.lt_irrefl s lt
  apart := List.pairwise_singleton _ _

/-- Entering the next edge of a trail, one that has not been met. -/
theorem Foremost.enter (fanned : Fanned successors) (h : Foremost successors unmet trail) {next : Nat}
    (found : trail.next? unmet = some (next, rest)) (off : next ∉ rest.edges) :
    Foremost successors (unmet.erase next) ((next, successors next) :: rest) := by
  obtain ⟨ended, edge, passed, untried, outer, rfl, rfl, skipped, place⟩ := Trail.next_split found
  have new : next ∈ unmet := place.resolve_left off
  have tried := h.tried.back ended
  obtain ⟨suffix, met, -⟩ := id tried
  have successor : next ∈ successors edge := suffix.subset (by simp)
  have onTrail : ∀ e ∈ Trail.edges ((edge, untried) :: outer),
      e ∈ Trail.edges (ended ++ (edge, passed ++ next :: untried) :: outer) := by
    intro e here
    rw [Trail.edges_append]
    exact List.mem_append_right _ here
  have lower : ∀ s ∈ successors edge, s < next →
      s ∉ unmet ∧ s ∉ Trail.edges ((edge, untried) :: outer) := by
    intro s among lt
    rcases met s among with here | met
    · rcases List.mem_append.1 here with here | here
      · exact (skipped s here).symm
      · have ascending := (fanned.ascending edge).sublist suffix.sublist
        have above := (List.pairwise_cons.1 (List.pairwise_append.1 ascending).2.1).1
        rcases List.mem_cons.1 here with rfl | here
        · exact absurd lt (Nat.lt_irrefl s)
        · exact absurd (above s here) (Nat.lt_asymm lt)
    · exact met
  -- A sibling on the trail would lie before the next edge, or the next edge before it.
  have alone : ∀ e ∈ Trail.edges ((edge, untried) :: outer), ¬ Siblings successors e next := by
    rintro e here ⟨n, sibling, own⟩
    have same := fanned.shared n edge next own successor
    rcases Nat.lt_trichotomy e next with lt | rfl | gt
    · exact (lower e (same ▸ sibling) lt).2 here
    · exact off here
    · exact (h.first e (onTrail e here) n sibling next own gt).1 new
  constructor
  · exact h.fresh.erase next
  · exact tried.enter h.fresh skipped off
  · intro e here n sibling s among lt
    have old : s ∉ unmet ∧ s ∉ Trail.edges ((edge, untried) :: outer) := by
      rcases List.mem_cons.1 here with rfl | here
      · exact lower s (fanned.shared n edge e sibling successor ▸ among) lt
      · obtain ⟨old, away⟩ := h.first e (onTrail e here) n sibling s among lt
        exact ⟨old, fun back => away (onTrail s back)⟩
    refine ⟨fun still => old.1 (List.mem_of_mem_erase still), fun back => ?_⟩
    rcases List.mem_cons.1 back with rfl | back
    · exact old.1 new
    · exact old.2 back
  · refine List.pairwise_cons.2 ⟨fun e here siblings => alone e here siblings.symm, ?_⟩
    have apart := h.apart
    rw [Trail.edges_append] at apart
    exact (List.pairwise_append.1 apart).2.1

/-- No two edges of a cycle that a search finds are siblings. -/
theorem Foremost.search (fanned : Fanned successors) (limit : Nat)
    (h : Foremost successors unmet trail) :
    match Calls.search successors limit unmet trail with
    | .cycle edges => edges.Pairwise fun a b => ¬ Siblings successors a b
    | .clear left => left.Nodup ∧ left ⊆ unmet := by
  induction limit generalizing unmet trail with
  | zero => exact ⟨h.fresh, List.Subset.refl unmet⟩
  | succ limit ih =>
      unfold Calls.search
      cases found : trail.next? unmet with
      | none => exact ⟨h.fresh, List.Subset.refl unmet⟩
      | some pair =>
          obtain ⟨next, rest⟩ := pair
          by_cases onTrail : next ∈ rest.edges
          · simp only [onTrail, if_true]
            obtain ⟨ended, edge, passed, untried, outer, rfl, rfl, -⟩ := Trail.next_split found
            have apart := h.apart
            rw [Trail.edges_append] at apart
            have inner : (Trail.edges ((edge, untried) :: outer)).reverse.Pairwise
                fun a b => ¬ Siblings successors a b :=
              List.pairwise_reverse.2 ((List.pairwise_append.1 apart).2.1.imp fun off back => off back.symm)
            exact inner.sublist (List.dropWhile_suffix _).sublist
          · simp only [onTrail, if_false]
            have ends := ih (h.enter fanned found onTrail)
            split at ends
            · exact ends
            · exact ⟨ends.1, fun n here => List.erase_subset (ends.2 here)⟩

/-- No two edges of the first cycle that is found are siblings. -/
theorem firstCycle_apart (fanned : Fanned successors) {starts edges : List Nat}
    (ascending : starts.Pairwise (· < ·)) (fresh : unmet.Nodup) (rest : unmet ⊆ starts)
    (found : firstCycle? successors starts unmet = some edges) :
    edges.Pairwise fun a b => ¬ Siblings successors a b := by
  induction starts generalizing unmet with
  | nil => cases found
  | cons start starts ih =>
      obtain ⟨above, ascending⟩ := List.pairwise_cons.1 ascending
      have later : ∀ n ∈ unmet, n = start ∨ n ∈ starts := fun n new => List.mem_cons.1 (rest new)
      unfold firstCycle? at found
      by_cases new : start ∈ unmet
      · simp only [new, if_true] at found
        have lowest : ∀ s ∈ unmet, start ≤ s := by
          intro s here
          rcases later s here with rfl | here
          · exact Nat.le_refl s
          · exact Nat.le_of_lt (above s here)
        have begun : Foremost successors (unmet.erase start) [(start, successors start)] :=
          .start fresh lowest
        have ends := begun.search fanned unmet.length
        split at found
        · next eq =>
          rw [eq] at ends
          exact Option.some.inj found ▸ ends
        · next left eq =>
          rw [eq] at ends
          refine ih ascending ends.1 ?_ found
          intro n here
          obtain ⟨other, old⟩ := fresh.mem_erase_iff.1 (ends.2 here)
          exact (later n old).resolve_left other
      · simp only [new, if_false] at found
        refine ih ascending fresh ?_ found
        intro n here
        rcases later n here with rfl | here
        · exact absurd here new
        · exact here

end SafeSubset.Calls
