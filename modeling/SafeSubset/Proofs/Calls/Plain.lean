import SafeSubset.Proofs.Calls.Verdict

/-! The search for a cycle that keeps nothing in mind but its path: it enters an
edge again whenever it comes to it again. It goes along a list of edges, from each
to those that start where it ends, in the order of the list. What the search with
edges left behind passes over, this one explores in vain, so both name the same
cycle. -/
namespace SafeSubset.Calls

open Relation (ReflTransGen TransGen)

/-- The places in a list of edges of those that start where an edge ends, in the order of
the list. -/
def onward (edges : List Edge) (edge : Nat) : List Nat :=
  (List.range edges.length).filter fun next =>
    ∃ e ∈ edges[edge]?, ∃ f ∈ edges[next]?, f.caller.id = e.callee.id

/-- What a search that knows only its path, the last edge first, finds at the given
successors of the last edge, tried one after the other. -/
inductive PlainSearch (successors : Nat → List Nat) :
    (path untried : List Nat) → Option (List Nat) → Prop where
  | exhausted {path : List Nat} : PlainSearch successors path [] none
  /-- The next edge is on the path. The cycle is the path from there on. -/
  | closes {path untried : List Nat} {next : Nat} (met : next ∈ path) :
      PlainSearch successors path (next :: untried) (some (path.reverse.dropWhile (· ≠ next)))
  | deeper {path untried cycle : List Nat} {next : Nat} (new : next ∉ path)
      (found : PlainSearch successors (next :: path) (successors next) (some cycle)) :
      PlainSearch successors path (next :: untried) (some cycle)
  /-- Nothing is found behind the next edge, and it is given up. -/
  | back {path untried : List Nat} {next : Nat} {answer : Option (List Nat)} (new : next ∉ path)
      (nothing : PlainSearch successors (next :: path) (successors next) none)
      (rest : PlainSearch successors path untried answer) :
      PlainSearch successors path (next :: untried) answer

/-- What such searches find from the given edges, one after the other. -/
inductive PlainFirst (successors : Nat → List Nat) : (starts : List Nat) → Option (List Nat) → Prop where
  | exhausted : PlainFirst successors [] none
  | found {start : Nat} {starts cycle : List Nat}
      (found : PlainSearch successors [start] (successors start) (some cycle)) :
      PlainFirst successors (start :: starts) (some cycle)
  | next {start : Nat} {starts : List Nat} {answer : Option (List Nat)}
      (nothing : PlainSearch successors [start] (successors start) none)
      (rest : PlainFirst successors starts answer) : PlainFirst successors (start :: starts) answer

/-- What the plain search finds when it goes on from a trail: at the untried successors
of its last edge, then at those of the edge before, and so on. -/
inductive PlainResumed (successors : Nat → List Nat) : Trail → Option (List Nat) → Prop where
  | ended : PlainResumed successors [] none
  | found {edge : Nat} {untried cycle : List Nat} {outer : Trail}
      (found : PlainSearch successors (edge :: outer.edges) untried (some cycle)) :
      PlainResumed successors ((edge, untried) :: outer) (some cycle)
  | back {edge : Nat} {untried : List Nat} {outer : Trail} {answer : Option (List Nat)}
      (nothing : PlainSearch successors (edge :: outer.edges) untried none)
      (rest : PlainResumed successors outer answer) :
      PlainResumed successors ((edge, untried) :: outer) answer

variable {successors : Nat → List Nat} {all unmet path untried passed : List Nat} {edge next : Nat}
  {left : Nat → Prop} {trail outer : Trail} {answer : Option (List Nat)}

/-- The plain search has one answer at most. -/
theorem PlainSearch.unique {other : Option (List Nat)}
    (first : PlainSearch successors path untried answer)
    (second : PlainSearch successors path untried other) : answer = other := by
  induction first generalizing other with
  | exhausted =>
      cases second
      rfl
  | closes met =>
      cases second with
      | closes => rfl
      | deeper new => exact absurd met new
      | back new => exact absurd met new
  | deeper new found ih =>
      cases second with
      | closes met => exact absurd met new
      | deeper _ found' => exact ih found'
      | back _ nothing' => exact nomatch ih nothing'
  | back new nothing rest ihNothing ihRest =>
      cases second with
      | closes met => exact absurd met new
      | deeper _ found' => exact nomatch ihNothing found'
      | back _ _ rest' => exact ihRest rest'

theorem PlainFirst.unique {starts : List Nat} {other : Option (List Nat)}
    (first : PlainFirst successors starts answer) (second : PlainFirst successors starts other) :
    answer = other := by
  induction first generalizing other with
  | exhausted =>
      cases second
      rfl
  | found found =>
      cases second with
      | found found' => exact found.unique found'
      | next nothing' => exact nomatch found.unique nothing'
  | next nothing rest ih =>
      cases second with
      | found found' => exact nomatch nothing.unique found'
      | next _ rest' => exact ih rest'

/-- Edges behind which nothing is found may be passed over. -/
theorem PlainSearch.skip
    (vain : ∀ s ∈ passed, s ∉ path ∧ PlainSearch successors (s :: path) (successors s) none)
    (rest : PlainSearch successors path untried answer) :
    PlainSearch successors path (passed ++ untried) answer := by
  induction passed with
  | nil => exact rest
  | cons s passed ih =>
      obtain ⟨new, nothing⟩ := vain s List.mem_cons_self
      apply PlainSearch.back new nothing
      apply ih
      intro t member
      exact vain t (List.mem_cons_of_mem s member)

/-- Among edges left behind the plain search finds nothing, if none of them leads to its
path. It comes to an end because its path grows by an edge that was not on it. -/
theorem LeftBehind.nothing (behind : LeftBehind successors left)
    (inside : ∀ n ∈ all, ∀ s ∈ successors n, s ∈ all) {fresh : List Nat}
    (places : ∀ n ∈ all, n ∈ path ∨ n ∈ fresh) (old : ∀ s ∈ untried, left s ∧ s ∈ all)
    (apart : ∀ s ∈ untried, ∀ a ∈ path, ¬ ReflTransGen (LeadsTo successors) s a) :
    PlainSearch successors path untried none := by
  induction size : fresh.length using Nat.strong_induction_on generalizing path untried fresh with
  | h size' ih =>
      subst size
      rw [← List.append_nil untried]
      apply PlainSearch.skip _ .exhausted
      intro s member
      obtain ⟨leftS, known⟩ := old s member
      have new : s ∉ path := fun met => apart s member s met .refl
      have unused : s ∈ fresh := (places s known).resolve_left new
      constructor
      · exact new
      · apply ih (fresh.erase s).length _ _ _ _ rfl
        · exact length_erase_lt unused
        · intro n hn
          by_cases same : n = s
          · left
            exact same ▸ List.mem_cons_self
          · rcases places n hn with met | free
            · left
              exact List.mem_cons_of_mem s met
            · right
              exact (List.mem_erase_of_ne same).2 free
        · intro t step
          exact ⟨behind.closed s leftS t step, inside s known t step⟩
        · intro t step a onPath walk
          -- Back at the edge itself the walk would be closed; elsewhere the edge would lead to the path.
          rcases List.mem_cons.1 onPath with rfl | onPath
          · exact behind.acyclic a leftS (TransGen.head' step walk)
          · exact apart s member a onPath (walk.head step)

/-- What lies behind a search is explored in vain from any path clear of it. -/
theorem LeftBehind.vain (behind : LeftBehind successors left)
    (inside : ∀ n ∈ all, ∀ s ∈ successors n, s ∈ all) {s : Nat} (old : left s) (known : s ∈ all)
    (clear : ∀ a ∈ path, ¬ left a) :
    s ∉ path ∧ PlainSearch successors (s :: path) (successors s) none := by
  constructor
  · intro met
    exact clear s met old
  · apply behind.nothing inside (fun n hn => .inr hn)
    · intro t step
      exact ⟨behind.closed s old t step, inside s known t step⟩
    · intro t step a onPath walk
      rcases List.mem_cons.1 onPath with rfl | onPath
      · exact behind.acyclic a old (TransGen.head' step walk)
      · exact clear a onPath (behind.reaches (behind.closed s old t step) walk)

/-- The successors that a search passes over are explored in vain. -/
theorem Exploring.skipped (h : Exploring successors all unmet none left ((edge, untried) :: outer))
    (inside : ∀ n ∈ all, ∀ s ∈ successors n, s ∈ all) {s : Nat} (member : s ∈ untried)
    (off : s ∉ edge :: outer.edges ∧ s ∉ unmet) :
    s ∉ edge :: outer.edges ∧ PlainSearch successors (s :: edge :: outer.edges) (successors s) none := by
  have edgeIn : edge ∈ all := h.within edge (by simp [Trail.edges])
  have known : s ∈ all := inside edge edgeIn s (h.pursued.2.1 s member)
  apply h.behind.vain inside (h.untried_left inside member off) known
  intro a onPath old
  exact (h.apart a old).2 onPath

/-- The plain search takes up an edge of which it finds nothing yet, and goes on behind it. -/
theorem PlainResumed.enter (new : next ∉ edge :: outer.edges)
    (h : PlainResumed successors ((next, successors next) :: (edge, untried) :: outer) answer) :
    PlainResumed successors ((edge, next :: untried) :: outer) answer := by
  cases h with
  | found found => exact .found (.deeper new found)
  | back nothing rest =>
      cases rest with
      | found found => exact .found (.back new nothing found)
      | back nothing' rest => exact .back (.back new nothing nothing') rest

theorem PlainResumed.skip
    (vain : ∀ s ∈ passed, s ∉ edge :: outer.edges ∧
      PlainSearch successors (s :: edge :: outer.edges) (successors s) none)
    (h : PlainResumed successors ((edge, untried) :: outer) answer) :
    PlainResumed successors ((edge, passed ++ untried) :: outer) answer := by
  cases h with
  | found found => exact .found (found.skip vain)
  | back nothing rest => exact .back (nothing.skip vain) rest

/-- Where a trail has a next edge, the plain search finds what it finds from there on;
where it has none, the plain search finds nothing. -/
theorem Exploring.resumed_next (h : Exploring successors all unmet none left trail)
    (inside : ∀ n ∈ all, ∀ s ∈ successors n, s ∈ all) :
    match trail.next? unmet with
    | none => PlainResumed successors trail none
    | some (next, trail') => ∃ edge untried outer, trail' = (edge, untried) :: outer ∧
        ∀ answer, PlainResumed successors ((edge, next :: untried) :: outer) answer →
          PlainResumed successors trail answer := by
  induction trail generalizing left with
  | nil => exact .ended
  | cons frame outer ih =>
      obtain ⟨edge, untried⟩ := frame
      obtain ⟨passed, next, rest, rfl, skipped, -, result⟩ | ⟨skipped, result⟩ :=
        Trail.next?_cons unmet edge untried outer
      · rw [result]
        refine ⟨edge, rest, outer, rfl, ?_⟩
        intro answer resumed
        apply resumed.skip
        intro s member
        exact h.skipped inside (List.mem_append_left _ member) (skipped s member)
      · rw [result]
        have nothing : PlainSearch successors (edge :: Trail.edges outer) untried none := by
          rw [← List.append_nil untried]
          apply PlainSearch.skip _ .exhausted
          intro s member
          exact h.skipped inside member (skipped s member)
        have below := ih (h.back fun s member => h.untried_left inside member (skipped s member))
        cases found : Trail.next? unmet outer with
        | none =>
            rw [found] at below
            exact .back nothing below
        | some pair =>
            rw [found] at below
            obtain ⟨edge', untried', outer', same, resumes⟩ := below
            refine ⟨edge', untried', outer', same, ?_⟩
            intro answer resumed
            exact .back nothing (resumes answer resumed)

/-- A search ends as the plain search does that goes on from the same trail. -/
theorem Exploring.resumed (inside : ∀ n ∈ all, ∀ s ∈ successors n, s ∈ all) {limit : Nat}
    (h : Exploring successors all unmet none left trail) (enough : unmet.length < limit) :
    match Calls.search successors limit unmet trail with
    | .cycle edges => PlainResumed successors trail (some edges)
    | .clear _ => PlainResumed successors trail none := by
  induction limit generalizing unmet left trail with
  | zero => omega
  | succ limit ih =>
      have next := h.next inside
      have resumes := h.resumed_next inside
      unfold Calls.search
      cases found : trail.next? unmet with
      | none => simpa only [found] using resumes
      | some pair =>
          obtain ⟨edge, trail'⟩ := pair
          rw [found] at next resumes
          obtain ⟨left', h', -, place⟩ := next
          obtain ⟨last, untried, outer, rfl, resumes⟩ := resumes
          by_cases onPath : edge ∈ Trail.edges ((last, untried) :: outer)
          · simp only [onPath, if_true]
            exact resumes _ (.found (.closes onPath))
          · have new : edge ∈ unmet := place.resolve_left onPath
            simp only [onPath, if_false]
            have ends := ih (h'.enter new h'.pursued) (by
              have := length_erase_lt new
              omega)
            split at ends
            · exact resumes _ (ends.enter onPath)
            · exact resumes _ (ends.enter onPath)

/-- From a first edge on, the plain search is all there is to resume. -/
theorem PlainResumed.search (h : PlainResumed successors [(edge, untried)] answer) :
    PlainSearch successors [edge] untried answer := by
  cases h with
  | found found => exact found
  | back nothing rest =>
      cases rest
      exact nothing

/-- The first cycle that is found with edges left behind is the first one of the plain
searches. -/
theorem Exploring.plainFirst (inside : ∀ n ∈ all, ∀ s ∈ successors n, s ∈ all) {starts : List Nat}
    (h : Exploring successors all unmet none left []) (within : ∀ n ∈ starts, n ∈ all) :
    PlainFirst successors starts (firstCycle? successors starts unmet) := by
  induction starts generalizing unmet left with
  | nil => exact .exhausted
  | cons start starts ih =>
      have later : ∀ n ∈ starts, n ∈ all := fun n hn => within n (List.mem_cons_of_mem start hn)
      unfold firstCycle?
      by_cases new : start ∈ unmet
      · have entered := h.enter new trivial
        have found := entered.search inside (length_erase_lt new)
        have resumed := entered.resumed inside (length_erase_lt new)
        simp only [new, if_true]
        cases ends : Calls.search successors unmet.length (unmet.erase start)
            [(start, successors start)] with
        | cycle edges =>
            rw [ends] at resumed
            exact .found resumed.search
        | clear unmet' =>
            rw [ends] at found resumed
            obtain ⟨-, left', behind⟩ := found
            exact .next resumed.search (ih behind later)
      · -- An edge that has been met is on the trail or left behind, and the trail is empty.
        have known := within start List.mem_cons_self
        have old : left start := by
          rcases h.places start known with met | met | met
          · exact absurd met new
          · exact absurd met (by simp [Trail.edges])
          · exact met
        have nothing : start ∉ [] ∧ PlainSearch successors [start] (successors start) none :=
          h.behind.vain inside old known (by simp)
        simp only [new, if_false]
        exact .next nothing.2 (ih h later)

namespace Graph

variable {g : Graph}

/-- The edges of numbers that are all in use. -/
theorem map_some_edgesAt {numbers : List Nat} (inside : ∀ n ∈ numbers, n < g.edges.length) :
    (g.edgesAt numbers).map some = numbers.map (g.edges[·]?) := by
  induction numbers with
  | nil => rfl
  | cons n numbers ih =>
      have bound := inside n List.mem_cons_self
      have rest := ih fun m member => inside m (List.mem_cons_of_mem n member)
      simp only [edgesAt, List.filterMap_cons, List.map_cons, List.getElem?_eq_getElem bound] at rest ⊢
      rw [rest]

/-- The numbers of the edges that satisfy a condition are their places in the list. -/
theorem numbersWhere_eq (g : Graph) (p : Edge → Bool) :
    g.numbersWhere p = (List.range g.edges.length).filter fun n => ∃ f ∈ g.edges[n]?, p f = true := by
  have numbers : List.range g.edges.length = g.edges.zipIdx.map Prod.snd := by
    rw [List.zipIdx_map_snd, List.range_eq_range']
  rw [numbers, List.filter_map, numbersWhere]
  congr 1
  apply List.filter_congr
  intro pair member
  have here : g.edges[pair.2]? = some pair.1 := List.mem_zipIdx_iff_getElem?.1 member
  simp [here]

/-- The successors that the search looks up are those of the list of edges. -/
theorem successors_eq (g : Graph) : g.successors = onward g.edges := by
  funext edge
  unfold successors onward
  cases start : g.edges[edge]? with
  | none => simp
  | some e => simp [outgoing, numbersWhere_eq]

/-- The plain search from every edge in turn has exactly one answer, and the check for
recursion reports that one: no cycle, or the same edges in the same order. -/
theorem checkRecursion_plain (g : Graph) :
    ∃ answer,
      (∀ other, PlainFirst (onward g.edges) (List.range g.edges.length) other ↔ other = answer) ∧
      match answer with
      | none => g.checkRecursion = g
      | some cycle => ∃ first rest, (first :: rest).map some = cycle.map (g.edges[·]?) ∧
          g.checkRecursion =
            { g with cycle := some cycle
                     diagnostics := g.diagnostics ++ [recursionReport first rest] } := by
  have plain : PlainFirst g.successors (List.range g.edges.length) g.findCycle? :=
    g.exploring_start.plainFirst (fun n _ => successors_inside n) fun _ => id
  have spec := g.findCycle_spec
  rw [g.successors_eq] at plain
  refine ⟨g.findCycle?, ?_, ?_⟩
  · intro other
    constructor
    · intro found
      exact found.unique plain
    · rintro rfl
      exact plain
  · cases result : g.findCycle? with
    | none => simp only [checkRecursion, result]
    | some cycle =>
        rw [result] at spec
        obtain ⟨isCycle, inside⟩ := spec
        obtain ⟨start, -, head, -⟩ := isCycle.closes
        have edges := map_some_edgesAt inside
        cases numbers : g.edgesAt cycle with
        | nil =>
            rw [numbers, eq_comm, List.map_nil, List.map_eq_nil_iff] at edges
            simp [edges] at head
        | cons first rest =>
            rw [numbers] at edges
            refine ⟨first, rest, edges, ?_⟩
            simp only [checkRecursion, result, noteCycle, numbers]

/-- Six calls of five functions. The call of `d` for `e` is met behind that of `b` for `d`,
and once more behind that of `c` for `d`. -/
def branching : Graph :=
  let vertex := fun name id => Vertex.mk id name (.point id)
  let a := vertex "a" 0
  let b := vertex "b" 1
  let c := vertex "c" 2
  let d := vertex "d" 3
  let e := vertex "e" 4
  ⟨[], [⟨a, b⟩, ⟨b, d⟩, ⟨b, c⟩, ⟨d, e⟩, ⟨c, d⟩, ⟨c, b⟩], none, []⟩

theorem checkRecursion_plain_branching :
    PlainFirst (onward branching.edges) (List.range branching.edges.length) (some [2, 5]) ∧
      branching.checkRecursion.cycle = some [2, 5] := by
  obtain ⟨answer, only, found⟩ := checkRecursion_plain branching
  have behind : onward branching.edges 0 = [1, 2] ∧ onward branching.edges 1 = [3] ∧
      onward branching.edges 2 = [4, 5] ∧ onward branching.edges 3 = [] ∧
      onward branching.edges 4 = [3] ∧ onward branching.edges 5 = [1, 2] := by decide
  obtain ⟨zero, one, two, three, four, five⟩ := behind
  have dead : ∀ path : List Nat, 3 ∉ path → PlainSearch (onward branching.edges) path [3] none := by
    intro path new
    exact .back new (three ▸ .exhausted) .exhausted
  have closed : PlainSearch (onward branching.edges) [5, 2, 0] [1, 2] (some [2, 5]) :=
    .back (by decide) (one ▸ dead _ (by decide)) (.closes (by decide))
  have onTwo : PlainSearch (onward branching.edges) [2, 0] [4, 5] (some [2, 5]) :=
    .back (by decide) (four ▸ dead _ (by decide)) (.deeper (by decide) (five ▸ closed))
  have onZero : PlainSearch (onward branching.edges) [0] [1, 2] (some [2, 5]) :=
    .back (by decide) (one ▸ dead _ (by decide)) (.deeper (by decide) (two ▸ onTwo))
  have plain : PlainFirst (onward branching.edges) (List.range branching.edges.length) (some [2, 5]) :=
    .found (zero ▸ onZero)
  obtain rfl : some [2, 5] = answer := (only _).1 plain
  obtain ⟨_, _, -, checked⟩ := found
  exact ⟨plain, by rw [checked]⟩

end Graph
end SafeSubset.Calls
