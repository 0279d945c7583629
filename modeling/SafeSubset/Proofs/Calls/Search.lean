import Mathlib.Data.List.Chain
import Mathlib.Data.List.Nodup
import Mathlib.Data.List.TakeWhile
import Mathlib.Logic.Relation
import SafeSubset.Calls.Cycle

/-! The search for a cycle of edges, for any successors. Every edge is in one of
three places: not met yet, on the trail, or left behind. An edge is left behind
once all its successors are, so what lies behind leads nowhere else and holds no
closed walk. -/
namespace SafeSubset.Calls

open Relation (TransGen ReflTransGen)

def LeadsTo (successors : Nat → List Nat) (a b : Nat) : Prop := b ∈ successors a

/-- The edges of a closed walk that comes to no edge twice, in the order of the
walk. -/
structure IsCycle (successors : Nat → List Nat) (edges : List Nat) : Prop where
  chain : edges.IsChain (LeadsTo successors)
  closes : ∃ first last, edges.head? = some first ∧ edges.getLast? = some last ∧
    LeadsTo successors last first
  nodup : edges.Nodup

/-- A set of edges that no edge leads out of and that holds no closed walk. -/
structure LeftBehind (successors : Nat → List Nat) (left : Nat → Prop) : Prop where
  closed : ∀ n, left n → ∀ s ∈ successors n, left s
  acyclic : ∀ n, left n → ¬ TransGen (LeadsTo successors) n n

/-- The frames of a trail, the last one first: a successor of an edge is still
untried, left behind, or the edge `above` that the trail goes on with. -/
def Pursued (successors : Nat → List Nat) (left : Nat → Prop) : (above : Option Nat) → Trail → Prop
  | _, [] => True
  | above, (edge, untried) :: outer =>
      (∀ s ∈ successors edge, s ∈ untried ∨ left s ∨ above = some s) ∧
        (∀ s ∈ untried, s ∈ successors edge) ∧ (∀ a ∈ above, LeadsTo successors edge a) ∧
        Pursued successors left (some edge) outer

/-- A search at work on the edges `all`. -/
structure Exploring (successors : Nat → List Nat) (all unmet : List Nat) (above : Option Nat)
    (left : Nat → Prop) (trail : Trail) : Prop where
  behind : LeftBehind successors left
  places : ∀ n ∈ all, n ∈ unmet ∨ n ∈ trail.edges ∨ left n
  apart : ∀ n, left n → n ∉ unmet ∧ n ∉ trail.edges
  nodup : (trail.edges ++ unmet).Nodup
  within : ∀ n ∈ trail.edges ++ unmet, n ∈ all
  pursued : Pursued successors left above trail

variable {successors : Nat → List Nat} {all unmet : List Nat} {above : Option Nat}
  {left : Nat → Prop} {trail outer : Trail}

/-- Edges still to be met are fewer once one of them is entered. -/
theorem length_erase_lt {n : Nat} (member : n ∈ unmet) : (unmet.erase n).length < unmet.length :=
  Nat.lt_of_succ_le (List.length_erase_add_one member).le

theorem LeftBehind.reaches (h : LeftBehind successors left) {a b : Nat} (ha : left a)
    (path : ReflTransGen (LeadsTo successors) a b) : left b := by
  induction path with
  | refl => exact ha
  | tail _ step ih => exact h.closed _ ih _ step

/-- An edge whose successors lie behind joins them. -/
theorem LeftBehind.add (h : LeftBehind successors left) {edge : Nat} (new : ¬ left edge)
    (succs : ∀ s ∈ successors edge, left s) :
    LeftBehind successors fun n => left n ∨ n = edge := by
  have stays : ∀ n, (left n ∨ n = edge) → ∀ s ∈ successors n, left s := by
    rintro n (old | rfl) s hs
    · exact h.closed n old s hs
    · exact succs s hs
  refine ⟨fun n hn s hs => .inl (stays n hn s hs), ?_⟩
  rintro n (old | rfl) cycle
  · exact h.acyclic n old cycle
  · obtain ⟨s, step, path⟩ := TransGen.head'_iff.1 cycle
    exact new (h.reaches (succs s step) path)

theorem Pursued.mono {left' : Nat → Prop} (grows : ∀ n, left n → left' n)
    (h : Pursued successors left above trail) : Pursued successors left' above trail := by
  induction trail generalizing above with
  | nil => trivial
  | cons frame outer ih =>
      obtain ⟨succs, untried, next, rest⟩ := h
      exact ⟨fun s hs => (succs s hs).imp_right (.imp_left (grows s)), untried, next, ih rest⟩

/-- The edges of a trail follow one another, from the last to the first. -/
theorem Pursued.chain (h : Pursued successors left above trail) :
    (above.toList ++ trail.edges).IsChain fun a b => LeadsTo successors b a := by
  induction trail generalizing above with
  | nil => cases above <;> simp [Trail.edges]
  | cons frame outer ih =>
      obtain ⟨_, _, next, rest⟩ := h
      have below := ih rest
      cases above with
      | none => simpa [Trail.edges] using below
      | some a =>
          have step : LeadsTo successors frame.1 a := next a rfl
          simpa [Trail.edges, List.isChain_cons_cons, step] using below

/-- Going back by one edge, none of whose successors is left to try. -/
theorem Exploring.back {edge : Nat} {untried : List Nat}
    (h : Exploring successors all unmet none left ((edge, untried) :: outer))
    (done : ∀ s ∈ untried, left s) :
    Exploring successors all unmet none (fun n => left n ∨ n = edge) outer := by
  obtain ⟨succs, _, _, rest⟩ := h.pursued
  have nodup := h.nodup
  simp only [Trail.edges, List.map_cons, List.cons_append, List.nodup_cons, List.mem_append,
    not_or] at nodup
  have new : ¬ left edge := fun old => (h.apart edge old).2 (by simp [Trail.edges])
  have all_left : ∀ s ∈ successors edge, left s := by
    intro s hs
    rcases succs s hs with hs | hs | hs
    · exact done s hs
    · exact hs
    · contradiction
  refine ⟨h.behind.add new all_left, ?_, ?_, nodup.2, ?_, ?_⟩
  · intro n hn
    rcases h.places n hn with met | met | met
    · exact .inl met
    · rcases List.mem_cons.1 met with same | met
      · exact .inr (.inr (.inr same))
      · exact .inr (.inl met)
    · exact .inr (.inr (.inl met))
  · rintro n (old | rfl)
    · have apart := h.apart n old
      exact ⟨apart.1, fun met => apart.2 (List.mem_cons_of_mem _ met)⟩
    · exact nodup.1.symm
  · exact fun n hn => h.within n (List.mem_cons_of_mem _ hn)
  · cases outer with
    | nil => trivial
    | cons frame outer =>
        obtain ⟨succs, untried, _, rest⟩ := rest
        refine ⟨fun s hs => ?_, untried, by simp, rest.mono fun n => .inl⟩
        rcases succs s hs with met | met | met
        · exact .inl met
        · exact .inr (.inl (.inl met))
        · exact .inr (.inl (.inr (Option.some.inj met).symm))

/-- Passing over successors that lie behind, up to one that does not. -/
theorem Exploring.advance {edge next : Nat} {passed untried : List Nat}
    (h : Exploring successors all unmet none left ((edge, passed ++ next :: untried) :: outer))
    (done : ∀ s ∈ passed, left s) :
    Exploring successors all unmet (some next) left ((edge, untried) :: outer) := by
  obtain ⟨succs, tries, _, rest⟩ := h.pursued
  refine ⟨h.behind, h.places, h.apart, h.nodup, h.within, ?_, ?_, ?_, rest⟩
  · intro s hs
    rcases succs s hs with met | met | met
    · rcases List.mem_append.1 met with met | met
      · exact .inr (.inl (done s met))
      · rcases List.mem_cons.1 met with rfl | met
        · exact .inr (.inr rfl)
        · exact .inl met
    · exact .inr (.inl met)
    · contradiction
  · exact fun s hs => tries s (by simp [hs])
  · intro a same
    exact Option.mem_some.1 same ▸ tries next (by simp)

/-- Entering an edge that has not been met. -/
theorem Exploring.enter {next : Nat} (h : Exploring successors all unmet above left trail)
    (new : next ∈ unmet) (pursued : Pursued successors left (some next) trail) :
    Exploring successors all (unmet.erase next) none left
      ((next, successors next) :: trail) := by
  obtain ⟨distinct, fresh, disjoint⟩ := List.nodup_append.1 h.nodup
  have places : ∀ n, n ∈ unmet.erase next ↔ n ≠ next ∧ n ∈ unmet :=
    fun n => fresh.mem_erase_iff
  refine ⟨h.behind, ?_, ?_, ?_, ?_, ?_, by simp, by simp, pursued⟩
  · intro n hn
    by_cases same : n = next
    · exact .inr (.inl (by simp [Trail.edges, same]))
    · rcases h.places n hn with met | met | met
      · exact .inl ((places n).2 ⟨same, met⟩)
      · exact .inr (.inl (List.mem_cons_of_mem _ met))
      · exact .inr (.inr met)
  · intro n old
    have apart := h.apart n old
    refine ⟨fun met => apart.1 ((places n).1 met).2, fun met => ?_⟩
    rcases List.mem_cons.1 met with rfl | met
    · exact apart.1 new
    · exact apart.2 met
  · have off : next ∉ trail.edges := fun met => disjoint next met next new rfl
    simp only [Trail.edges, List.map_cons, List.cons_append, List.nodup_cons, List.mem_append,
      places]
    refine ⟨by simpa [Trail.edges] using off, List.nodup_append.2 ⟨distinct, fresh.erase _, ?_⟩⟩
    exact fun a ha b hb => disjoint a ha b ((places b).1 hb).2
  · intro n met
    rcases List.mem_append.1 met with met | met
    · rcases List.mem_cons.1 met with rfl | met
      · exact h.within n (List.mem_append_right _ new)
      · exact h.within n (List.mem_append_left _ met)
    · exact h.within n (List.mem_append_right _ ((places n).1 met).2)
  · exact fun s hs => .inl hs

/-- The next edge of a trail is the first untried successor of its last edge that is on
the trail or has not been met. Where there is none, the search goes back. -/
theorem Trail.next?_cons (unmet : List Nat) (edge : Nat) (untried : List Nat) (outer : Trail) :
    (∃ passed next rest, untried = passed ++ next :: rest ∧
      (∀ s ∈ passed, s ∉ edge :: outer.edges ∧ s ∉ unmet) ∧
      (next ∈ edge :: outer.edges ∨ next ∈ unmet) ∧
      Trail.next? unmet ((edge, untried) :: outer) = some (next, (edge, rest) :: outer)) ∨
    ((∀ s ∈ untried, s ∉ edge :: outer.edges ∧ s ∉ unmet) ∧
      Trail.next? unmet ((edge, untried) :: outer) = Trail.next? unmet outer) := by
  have split := List.takeWhile_append_dropWhile
    (p := fun n => decide (n ∉ edge :: outer.edges ∧ n ∉ unmet)) (l := untried)
  have passed : ∀ s ∈ untried.takeWhile (fun n => decide (n ∉ edge :: outer.edges ∧ n ∉ unmet)),
      s ∉ edge :: outer.edges ∧ s ∉ unmet := by
    intro s hs
    simpa using List.mem_takeWhile_imp hs
  rw [Trail.next?]
  cases rest : untried.dropWhile (fun n => decide (n ∉ edge :: outer.edges ∧ n ∉ unmet)) with
  | nil =>
      rw [rest, List.append_nil] at split
      right
      exact ⟨fun s hs => passed s (split.symm ▸ hs), rfl⟩
  | cons next rest' =>
      rw [rest] at split
      have stop := List.head_dropWhile_not
        (fun n => decide (n ∉ edge :: outer.edges ∧ n ∉ unmet)) (l := untried)
        (rest.symm ▸ List.cons_ne_nil _ _)
      simp only [rest, List.head_cons, decide_eq_false_iff_not, not_and_or, not_not] at stop
      left
      exact ⟨_, next, rest', split.symm, passed, stop, rfl⟩

/-- A successor of the last edge lies behind if it is neither on the trail nor still to
be met. -/
theorem Exploring.untried_left {edge s : Nat} {untried : List Nat}
    (h : Exploring successors all unmet none left ((edge, untried) :: outer))
    (inside : ∀ n ∈ all, ∀ s ∈ successors n, s ∈ all) (member : s ∈ untried)
    (off : s ∉ edge :: outer.edges ∧ s ∉ unmet) : left s := by
  have edgeIn : edge ∈ all := h.within edge (by simp [Trail.edges])
  rcases h.places s (inside edge edgeIn s (h.pursued.2.1 s member)) with met | met | met
  · exact absurd met off.2
  · exact absurd met off.1
  · exact met

/-- Where the trail goes on, it is with a successor of its last edge that does
not lie behind; where it does not, all of it lies behind. -/
theorem Exploring.next (h : Exploring successors all unmet none left trail)
    (inside : ∀ n ∈ all, ∀ s ∈ successors n, s ∈ all) :
    match trail.next? unmet with
    | none => ∃ left, Exploring successors all unmet none left []
    | some (next, trail) => ∃ left, Exploring successors all unmet (some next) left trail ∧
        trail ≠ [] ∧ (next ∈ trail.edges ∨ next ∈ unmet) := by
  induction trail generalizing left with
  | nil => exact ⟨left, h⟩
  | cons frame outer ih =>
      obtain ⟨edge, untried⟩ := frame
      obtain ⟨passed, next, rest, rfl, skipped, stop, result⟩ | ⟨skipped, result⟩ :=
        Trail.next?_cons unmet edge untried outer
      · have behind : ∀ s ∈ passed, left s := fun s hs =>
          h.untried_left inside (List.mem_append_left _ hs) (skipped s hs)
        rw [result]
        exact ⟨left, h.advance behind, by simp, stop⟩
      · rw [result]
        exact ih (h.back fun s hs => h.untried_left inside hs (skipped s hs))

theorem Exploring.cycle {next : Nat} (h : Exploring successors all unmet (some next) left trail)
    (met : next ∈ trail.edges) : IsCycle successors (trail.since next) := by
  obtain ⟨passed, since⟩ := List.dropWhile_suffix (· ≠ next) (l := trail.edges.reverse)
  have distinct : trail.edges.reverse.Nodup :=
    List.nodup_reverse.2 (List.nodup_append.1 h.nodup).1
  have ne : trail.since next ≠ [] := by
    simp only [Trail.since, ne_eq, List.dropWhile_eq_nil_iff]
    exact fun off => by simpa using off next (List.mem_reverse.2 met)
  have chain : (next :: trail.edges).IsChain fun a b => LeadsTo successors b a := by
    simpa using h.pursued.chain
  refine ⟨?_, ⟨next, (trail.since next).getLast ne, ?_, List.getLast?_eq_some_getLast ne, ?_⟩, ?_⟩
  · exact (List.isChain_reverse.2 chain.tail).suffix (List.dropWhile_suffix _)
  · have stop := List.head_dropWhile_not (fun n => decide (n ≠ next))
      (l := trail.edges.reverse) (by simpa [Trail.since] using ne)
    rw [List.head?_eq_some_head ne]
    simpa [Trail.since] using stop
  · have last : (trail.since next).getLast? = trail.edges.head? := by
      rw [← List.getLast?_reverse, ← since]
      exact (List.getLast?_append_of_ne_nil _ ne).symm
    rw [List.getLast?_eq_some_getLast ne] at last
    exact chain.rel_head? last.symm
  · exact distinct.sublist (List.dropWhile_suffix _).sublist

/-- A search that finds a cycle names one; one that does not has left all it met
behind. -/
theorem Exploring.search (inside : ∀ n ∈ all, ∀ s ∈ successors n, s ∈ all) {limit : Nat}
    (h : Exploring successors all unmet none left trail) (enough : unmet.length < limit) :
    match Calls.search successors limit unmet trail with
    | .cycle edges => IsCycle successors edges ∧ ∀ n ∈ edges, n ∈ all
    | .clear rest => rest ⊆ unmet ∧ ∃ left, Exploring successors all rest none left [] := by
  induction limit generalizing unmet left trail with
  | zero => omega
  | succ limit ih =>
      have next := h.next inside
      unfold Calls.search
      cases found : trail.next? unmet with
      | none =>
          rw [found] at next
          exact ⟨fun _ => id, next⟩
      | some pair =>
          obtain ⟨edge, trail'⟩ := pair
          rw [found] at next
          obtain ⟨left', h', ne, place⟩ := next
          by_cases onPath : edge ∈ trail'.edges
          · simp only [onPath, if_true]
            refine ⟨h'.cycle onPath, fun n hn => h'.within n (List.mem_append_left _ ?_)⟩
            exact List.mem_reverse.1 ((List.dropWhile_suffix _).subset hn)
          · have new : edge ∈ unmet := place.resolve_left onPath
            simp only [onPath, if_false]
            have found := ih (h'.enter new h'.pursued) (by
              have := length_erase_lt new
              omega)
            split at found
            · exact found
            · exact ⟨fun n hn => List.erase_subset (found.1 hn), found.2⟩

/-- The first cycle found is one, and where none is found there is none. -/
theorem Exploring.firstCycle (inside : ∀ n ∈ all, ∀ s ∈ successors n, s ∈ all) {starts : List Nat}
    (h : Exploring successors all unmet none left []) (rest : ∀ n ∈ unmet, n ∈ starts) :
    match firstCycle? successors starts unmet with
    | some edges => IsCycle successors edges ∧ ∀ n ∈ edges, n ∈ all
    | none => ∀ n ∈ all, ¬ TransGen (LeadsTo successors) n n := by
  induction starts generalizing unmet left with
  | nil =>
      intro n hn
      have old : left n := by
        rcases h.places n hn with met | met | met
        · simpa using rest n met
        · simp [Trail.edges] at met
        · exact met
      exact h.behind.acyclic n old
  | cons start starts ih =>
      unfold firstCycle?
      by_cases new : start ∈ unmet
      · have entered := h.enter new trivial
        have found := entered.search inside (length_erase_lt new)
        simp only [new, if_true]
        cases ends : Calls.search successors unmet.length (unmet.erase start)
            [(start, successors start)] with
        | cycle edges => simpa only [ends] using found
        | clear unmet' =>
            rw [ends] at found
            obtain ⟨fewer, left', behind⟩ := found
            refine ih behind fun n hn => ?_
            have fresh := (List.nodup_append.1 h.nodup).2.1
            obtain ⟨ne, old⟩ := fresh.mem_erase_iff.1 (fewer hn)
            exact (List.mem_cons.1 (rest n old)).resolve_left ne
      · simp only [new, if_false]
        refine ih h fun n hn => ?_
        rcases List.mem_cons.1 (rest n hn) with rfl | later
        · exact absurd hn new
        · exact later

end SafeSubset.Calls
