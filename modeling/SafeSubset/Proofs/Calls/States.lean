import SafeSubset.Proofs.Calls.Elementary
import SafeSubset.Proofs.Calls.Verdict

/-! What holds in every state of a graph. No two edges join the same functions, so that
queries by function and by number agree. A cycle that has been noted is still one, and
comes to no function twice. There are as many reports as checks that found a cycle. -/
namespace SafeSubset.Calls

open Relation (TransGen)

variable {α : Type} {u : SourceUnit α} {g h : Graph} {numbers : List Nat} {es : List Edge}

/-- The numbers of the two functions that an edge joins. -/
def Edge.ends (e : Edge) : Nat × Nat := (e.caller.id, e.callee.id)

theorem Edge.joins_iff {e : Edge} {v w : Vertex} : e.Joins v w ↔ e.ends = (v.id, w.id) := by
  simp [Joins, ends]

namespace Graph

/-- The edge with the second number leaves the function at which the first one ends. -/
def Follows (g : Graph) (a b : Nat) : Prop :=
  ∃ e f, g.edges[a]? = some e ∧ g.edges[b]? = some f ∧ f.caller.id = e.callee.id

/-- Along edges that follow one another, some edge leads back to itself. -/
def Recursive (g : Graph) : Prop := ∃ n, TransGen g.Follows n n

/-- A closed walk along edges that comes to no function twice: the numbers of its edges,
and the edges. -/
structure ElementaryCycle (g : Graph) (numbers : List Nat) (es : List Edge) : Prop where
  edges : numbers.map (g.edges[·]?) = es.map some
  follows : es.IsChain fun e f => f.caller.id = e.callee.id
  closes : ∃ first last, es.head? = some first ∧ es.getLast? = some last ∧
    first.caller.id = last.callee.id
  callers : (es.map fun e => e.caller.id).Nodup

section Cycles

theorem follows_eq (g : Graph) : g.Follows = LeadsTo g.successors := by
  funext a b
  exact propext leadsTo_iff.symm

theorem numbersWhere_ascending (g : Graph) (p : Edge → Bool) :
    (g.numbersWhere p).Pairwise (· < ·) := by
  have all : (g.edges.zipIdx.map Prod.snd).Pairwise (· < ·) := by
    rw [List.zipIdx_map_snd]
    exact List.pairwise_lt_range'
  exact all.sublist (List.filter_sublist.map Prod.snd)

theorem mem_incoming {v : Vertex} {n : Nat} :
    n ∈ g.incoming v ↔ ∃ e, g.edges[n]? = some e ∧ e.callee.id = v.id := by
  simp only [incoming, numbersWhere, List.mem_map, List.mem_filter, Prod.exists,
    List.mem_zipIdx_iff_getElem?, decide_eq_true_eq]
  constructor
  · rintro ⟨e, _, ⟨at_, callee⟩, rfl⟩
    exact ⟨e, at_, callee⟩
  · rintro ⟨e, at_, callee⟩
    exact ⟨e, n, ⟨at_, callee⟩, rfl⟩

/-- Edges of a graph that have one edge behind them in common end at one function. -/
theorem fanned (g : Graph) : Fanned g.successors where
  ascending := by
    intro n
    unfold successors
    split
    · exact g.numbersWhere_ascending _
    · exact .nil
  shared := by
    intro m n s first second
    obtain ⟨e, d, atM, atS, fromM⟩ := leadsTo_iff.1 first
    obtain ⟨f, d', atN, atS', fromN⟩ := leadsTo_iff.1 second
    obtain rfl := Option.some.inj (atS.symm.trans atS')
    simp only [successors, atM, atN, outgoing, ← fromM, ← fromN]

/-- Each edge of a cycle follows one of its edges. -/
theorem exists_before {successors : Nat → List Nat} (cycle : IsCycle successors numbers) {n : Nat}
    (member : n ∈ numbers) : ∃ m ∈ numbers, LeadsTo successors m n := by
  obtain ⟨first, last, head, getLast, back⟩ := cycle.closes
  obtain ⟨before, behind, rfl⟩ := List.append_of_mem member
  rcases List.eq_nil_or_concat before with rfl | ⟨init, m, rfl⟩
  · obtain rfl : n = first := Option.some.inj head
    exact ⟨last, List.mem_of_getLast? getLast, back⟩
  · have chain := cycle.chain
    simp only [List.concat_eq_append, List.append_assoc, List.singleton_append] at chain
    exact ⟨m, by simp, (List.isChain_append_cons_cons.1 chain).2.1⟩

theorem map_edgesAt (inside : ∀ n ∈ numbers, n < g.edges.length) :
    numbers.map (g.edges[·]?) = (g.edgesAt numbers).map some := by
  induction numbers with
  | nil => rfl
  | cons n ns ih =>
      have at_ := List.getElem?_eq_getElem (inside n List.mem_cons_self)
      simp only [edgesAt, List.map_cons, List.filterMap_cons, at_, List.cons.injEq, true_and]
      exact ih fun m member => inside m (List.mem_cons_of_mem n member)

/-- Edges of a cycle without siblings leave different functions: if two left the same, both
would follow the edge before the first of them. -/
theorem callers_of_apart (cycle : IsCycle g.successors numbers)
    (apart : numbers.Pairwise fun a b => ¬ Siblings g.successors a b) :
    (numbers.map (g.edges[·]?)).Pairwise fun a b =>
      ∀ e f, a = some e → b = some f → e.caller.id ≠ f.caller.id := by
  rw [List.pairwise_map]
  refine apart.imp_of_mem ?_
  intro a b first _ alone e f atA atB same
  obtain ⟨m, -, leads⟩ := exists_before cycle first
  obtain ⟨d, e', atM, atA', follows⟩ := leadsTo_iff.1 leads
  obtain rfl := Option.some.inj (atA.symm.trans atA')
  have leads' : LeadsTo g.successors m b := leadsTo_iff.2 ⟨d, f, atM, atB, same ▸ follows⟩
  exact alone ⟨m, leads, leads'⟩

/-- What the search finds is an elementary cycle. -/
theorem elementary_of_found (found : g.findCycle? = some numbers) :
    g.ElementaryCycle numbers (g.edgesAt numbers) := by
  have spec := g.findCycle_spec
  rw [found] at spec
  obtain ⟨cycle, inside⟩ := spec
  have apart : numbers.Pairwise fun a b => ¬ Siblings g.successors a b :=
    firstCycle_apart g.fanned List.pairwise_lt_range List.nodup_range (List.Subset.refl _) found
  have edges := map_edgesAt inside
  constructor
  · exact edges
  · have chain : (numbers.map (g.edges[·]?)).IsChain fun a b =>
        ∀ e f, a = some e → b = some f → f.caller.id = e.callee.id := by
      rw [List.isChain_map]
      refine cycle.chain.imp ?_
      intro a b leads e f atA atB
      obtain ⟨e', f', atA', atB', follows⟩ := leadsTo_iff.1 leads
      obtain rfl := Option.some.inj (atA.symm.trans atA')
      obtain rfl := Option.some.inj (atB.symm.trans atB')
      exact follows
    rw [edges, List.isChain_map] at chain
    exact chain.imp fun e f follows => follows e f rfl rfl
  · obtain ⟨first, last, head, getLast, back⟩ := cycle.closes
    obtain ⟨e, f, atLast, atFirst, follows⟩ := leadsTo_iff.1 back
    have heads := congrArg List.head? edges
    have lasts := congrArg List.getLast? edges
    simp only [List.head?_map, List.getLast?_map, head, getLast, Option.map_some, atFirst, atLast]
      at heads lasts
    obtain ⟨_, isFirst, same⟩ := Option.map_eq_some_iff.1 heads.symm
    obtain ⟨_, isLast, same'⟩ := Option.map_eq_some_iff.1 lasts.symm
    cases same
    cases same'
    exact ⟨f, e, isFirst, isLast, follows⟩
  · have callers := callers_of_apart cycle apart
    rw [edges, List.pairwise_map] at callers
    rw [List.nodup_iff_pairwise_ne, List.pairwise_map]
    exact callers.imp fun differ => differ _ _ rfl rfl

theorem ElementaryCycle.ne_nil (cycle : g.ElementaryCycle numbers es) : es ≠ [] := by
  obtain ⟨first, -, head, -⟩ := cycle.closes
  rintro rfl
  cases head

/-- Edges that are added behind the others leave a cycle as it is. -/
theorem ElementaryCycle.extend (cycle : g.ElementaryCycle numbers es) (more : g.edges <+: h.edges) :
    h.ElementaryCycle numbers es := by
  refine ⟨?_, cycle.follows, cycle.closes, cycle.callers⟩
  rw [← cycle.edges]
  refine List.map_congr_left fun n member => ?_
  have there : g.edges[n]? ∈ es.map some := cycle.edges ▸ List.mem_map_of_mem member
  obtain ⟨e, -, at_⟩ := List.mem_map.1 there
  obtain ⟨rest, split⟩ := more
  rw [← split, List.getElem?_append_left (List.getElem?_eq_some_iff.1 at_.symm).1]

theorem recursive_iff : g.Recursive ↔ ∃ numbers, g.findCycle? = some numbers := by
  have spec := g.findCycle_spec
  unfold Recursive
  rw [follows_eq]
  cases found : g.findCycle? with
  | none =>
      rw [found] at spec
      simpa using spec
  | some numbers =>
      rw [found] at spec
      exact ⟨fun _ => ⟨numbers, rfl⟩, fun _ => spec.1.walk⟩

theorem noteCycle_elementary {first : Edge} {rest : List Edge}
    (cycle : g.ElementaryCycle numbers (first :: rest)) :
    g.noteCycle numbers =
      { g with cycle := some numbers, diagnostics := g.diagnostics ++ [recursionReport first rest] } := by
  have edges : g.edgesAt numbers = first :: rest := by
    have all := congrArg (List.filterMap id) cycle.edges
    rw [List.filterMap_map, List.filterMap_map] at all
    exact all.trans List.filterMap_some
  simp only [noteCycle, edges]

/-- A check of a graph with a cycle notes an elementary one, and reports its edges in the
order of the walk, at the function with which they start. -/
theorem checkRecursion_of_recursive (recursive : g.Recursive) :
    ∃ numbers first rest, g.ElementaryCycle numbers (first :: rest) ∧
      g.checkRecursion =
        { g with cycle := some numbers, diagnostics := g.diagnostics ++ [recursionReport first rest] } := by
  obtain ⟨numbers, found⟩ := recursive_iff.1 recursive
  have cycle := elementary_of_found found
  obtain ⟨first, rest, edges⟩ := List.exists_cons_of_ne_nil cycle.ne_nil
  rw [edges] at cycle
  refine ⟨numbers, first, rest, cycle, ?_⟩
  simp only [checkRecursion, found]
  exact noteCycle_elementary cycle

theorem checkRecursion_of_not_recursive (acyclic : ¬ g.Recursive) : g.checkRecursion = g := by
  have none : g.findCycle? = none := by
    cases found : g.findCycle? with
    | none => rfl
    | some numbers => exact absurd (recursive_iff.2 ⟨numbers, found⟩) acyclic
  simp only [checkRecursion, none]

end Cycles

section Edges

theorem edgeNumber_eq_none {v w : Vertex} :
    g.edgeNumber? v w = none ↔ ¬ ∃ e ∈ g.edges, e.Joins v w := by
  simp [edgeNumber?]

/-- An edge that is there is not added again. -/
theorem insert_of_joins {v w : Vertex} (there : ∃ e ∈ g.edges, e.Joins v w) : g.insert v w = g := by
  cases at_ : g.edgeNumber? v w with
  | none => exact absurd there (edgeNumber_eq_none.1 at_)
  | some n => simp only [insert, at_]

theorem insert_of_not_joins {v w : Vertex} (new : ¬ ∃ e ∈ g.edges, e.Joins v w) :
    g.insert v w = { g with edges := g.edges ++ [⟨v, w⟩] } := by
  simp only [insert, edgeNumber_eq_none.2 new]

/-- An edge that is not there cannot be removed. -/
theorem erase_of_not_joins {v w : Vertex} (none : ¬ ∃ e ∈ g.edges, e.Joins v w) : g.erase v w = g := by
  simp only [erase, edgeNumber_eq_none.2 none]

/-- What neither the list of functions nor an insertion changes is the same when a file
has been added. -/
theorem addUnit_induction {P : Graph → Prop} (u : SourceUnit α)
    (listed : ∀ g functions, P g → P { g with functions })
    (insert : ∀ g v w, P g → P (g.insert v w)) (start : P g) : P (g.addUnit u) := by
  refine List.foldlRecOn _ _ start fun g holds c _ => ?_
  refine List.foldlRecOn _ _ (listed g _ holds) fun g holds f _ => ?_
  exact List.foldlRecOn _ _ holds fun g holds callee _ => insert g _ _ holds

theorem insert_extends (g : Graph) (v w : Vertex) : g.edges <+: (g.insert v w).edges ∧
    (g.insert v w).cycle = g.cycle ∧ (g.insert v w).diagnostics = g.diagnostics := by
  unfold insert
  split
  · exact ⟨List.prefix_refl _, rfl, rfl⟩
  · exact ⟨List.prefix_append _ _, rfl, rfl⟩

/-- Adding a file adds edges behind the others, and changes neither the cycle nor the
reports. -/
theorem addUnit_extends (u : SourceUnit α) (g : Graph) : g.edges <+: (g.addUnit u).edges ∧
    (g.addUnit u).cycle = g.cycle ∧ (g.addUnit u).diagnostics = g.diagnostics := by
  refine addUnit_induction (P := fun h => g.edges <+: h.edges ∧ h.cycle = g.cycle ∧
    h.diagnostics = g.diagnostics) u (fun _ _ holds => holds) ?_ ⟨List.prefix_refl _, rfl, rfl⟩
  rintro h v w ⟨edges, cycle, diagnostics⟩
  obtain ⟨edges', cycle', diagnostics'⟩ := h.insert_extends v w
  exact ⟨edges.trans edges', cycle'.trans cycle, diagnostics'.trans diagnostics⟩

end Edges

/-- What holds of a graph at all times. -/
structure Sound (g : Graph) : Prop where
  distinct : (g.edges.map Edge.ends).Nodup
  cycle : ∀ numbers, g.cycle = some numbers → ∃ es, g.ElementaryCycle numbers es

namespace Sound

theorem listed (sound : g.Sound) (functions : List Listed) : Sound { g with functions } where
  distinct := sound.distinct
  cycle := by
    intro numbers noted
    obtain ⟨es, elementary⟩ := sound.cycle numbers noted
    exact ⟨es, elementary.extend (List.prefix_refl _)⟩

theorem insert (sound : g.Sound) (v w : Vertex) : (g.insert v w).Sound := by
  obtain ⟨edges, cycle, -⟩ := g.insert_extends v w
  constructor
  · by_cases there : ∃ e ∈ g.edges, e.Joins v w
    · rw [insert_of_joins there]
      exact sound.distinct
    · rw [insert_of_not_joins there, List.map_append, List.nodup_append]
      refine ⟨sound.distinct, List.nodup_singleton _, ?_⟩
      intro ends old other new same
      obtain ⟨e, member, rfl⟩ := List.mem_map.1 old
      obtain rfl := List.mem_singleton.1 new
      exact there ⟨e, member, Edge.joins_iff.2 same⟩
  · intro numbers noted
    rw [cycle] at noted
    obtain ⟨es, elementary⟩ := sound.cycle numbers noted
    exact ⟨es, elementary.extend edges⟩

theorem erase (sound : g.Sound) (v w : Vertex) : (g.erase v w).Sound := by
  unfold Graph.erase
  split
  · constructor
    · exact sound.distinct.sublist ((List.eraseIdx_sublist _ _).map Edge.ends)
    · intro numbers noted
      cases noted
  · exact sound

theorem check (sound : g.Sound) : g.checkRecursion.Sound := by
  by_cases recursive : g.Recursive
  · obtain ⟨numbers, first, rest, cycle, checked⟩ := checkRecursion_of_recursive recursive
    rw [checked]
    constructor
    · exact sound.distinct
    · intro numbers' noted
      cases noted
      exact ⟨first :: rest, cycle.extend (List.prefix_refl _)⟩
  · rw [checkRecursion_of_not_recursive recursive]
    exact sound

end Sound

theorem History.sound (history : History u g) : g.Sound := by
  induction history with
  | empty =>
      constructor
      · exact List.nodup_nil
      · intro numbers noted
        cases noted
  | addUnit _ ih =>
      exact addUnit_induction u (fun _ functions sound => sound.listed functions)
        (fun _ v w sound => sound.insert v w) ih
  | insert _ _ _ ih => exact ih.insert _ _
  | erase _ _ _ ih => exact ih.erase _ _
  | check _ ih => exact ih.check

/-- A history, with how many of its checks were of a graph with a cycle. -/
inductive Tally (u : SourceUnit α) : Graph → Nat → Prop
  | empty : Tally u .empty 0
  | addUnit {g : Graph} {n : Nat} : Tally u g n → Tally u (g.addUnit u) n
  | insert {g : Graph} {n : Nat} {caller callee : FunctionDef α} : Tally u g n →
      caller ∈ u.functions → callee ∈ u.functions →
      Tally u (g.insert (.of caller) (.of callee)) n
  | erase {g : Graph} {n : Nat} {caller callee : FunctionDef α} : Tally u g n →
      caller ∈ u.functions → callee ∈ u.functions →
      Tally u (g.erase (.of caller) (.of callee)) n
  | clear {g : Graph} {n : Nat} : Tally u g n → ¬ g.Recursive → Tally u g.checkRecursion n
  | found {g : Graph} {n : Nat} : Tally u g n → g.Recursive → Tally u g.checkRecursion (n + 1)

theorem History.tally (history : History u g) : ∃ n, Tally u g n := by
  induction history with
  | empty => exact ⟨0, .empty⟩
  | addUnit _ ih => exact ih.imp fun _ => .addUnit
  | insert _ hf hc ih => exact ih.imp fun _ tally => .insert tally hf hc
  | erase _ hf hc ih => exact ih.imp fun _ tally => .erase tally hf hc
  | @check g _ ih =>
      obtain ⟨n, tally⟩ := ih
      by_cases recursive : g.Recursive
      · exact ⟨n + 1, .found tally recursive⟩
      · exact ⟨n, .clear tally recursive⟩

/-- Each check that finds a cycle adds one report, and nothing else does. -/
theorem Tally.diagnostics {n : Nat} (tally : Tally u g n) : g.diagnostics.length = n := by
  induction tally with
  | empty => rfl
  | @addUnit g n _ ih => rw [(g.addUnit_extends u).2.2, ih]
  | @insert g n caller callee _ _ _ ih => rw [(g.insert_extends _ _).2.2, ih]
  | erase _ _ _ ih =>
      unfold Graph.erase
      split
      · exact ih
      · exact ih
  | clear _ acyclic ih => rw [checkRecursion_of_not_recursive acyclic, ih]
  | found _ recursive ih =>
      obtain ⟨_, first, rest, -, checked⟩ := checkRecursion_of_recursive recursive
      rw [checked, List.length_append, ih]
      rfl

theorem edgeNumber_eq_some (sound : g.Sound) {v w : Vertex} {n : Nat} :
    g.edgeNumber? v w = some n ↔ ∃ e, g.edges[n]? = some e ∧ e.Joins v w := by
  simp only [edgeNumber?, List.findIdx?_eq_some_iff_getElem, decide_eq_true_eq]
  constructor
  · rintro ⟨bound, joins, -⟩
    exact ⟨_, List.getElem?_eq_getElem bound, joins⟩
  · rintro ⟨e, at_, joins⟩
    obtain ⟨bound, rfl⟩ := List.getElem?_eq_some_iff.1 at_
    refine ⟨bound, joins, ?_⟩
    intro m before other
    have distinct := List.pairwise_map.1 (List.nodup_iff_pairwise_ne.1 sound.distinct)
    apply List.pairwise_iff_getElem.1 distinct m n (Nat.lt_trans before bound) bound before
    rw [Edge.joins_iff.1 joins, Edge.joins_iff.1 other]

/-- What holds in every state of a graph. No two edges join the same functions; the number
of an edge is the place where it stands, and queries give the numbers of the edges that
leave a function, or enter it, in ascending order. A noted cycle is an elementary cycle of
the edges there are. A check of a graph with a cycle notes one, and reports its edges in
their order at the function that the first one leaves; a check of another graph changes
nothing, and there are as many reports as checks of the first kind. Adding an edge that is
there, or removing one that is not, changes nothing. -/
theorem state_invariants (history : History u g) :
    (g.edges.map Edge.ends).Nodup ∧
    (∀ v w n, g.edgeNumber? v w = some n ↔ ∃ e, g.edges[n]? = some e ∧ e.Joins v w) ∧
    (∀ v, (g.outgoing v).Pairwise (· < ·) ∧
      ∀ n, n ∈ g.outgoing v ↔ ∃ e, g.edges[n]? = some e ∧ e.caller.id = v.id) ∧
    (∀ v, (g.incoming v).Pairwise (· < ·) ∧
      ∀ n, n ∈ g.incoming v ↔ ∃ e, g.edges[n]? = some e ∧ e.callee.id = v.id) ∧
    (∀ numbers, g.cycle = some numbers → ∃ es, es ≠ [] ∧ g.ElementaryCycle numbers es) ∧
    (g.Recursive → ∃ numbers first rest report, g.ElementaryCycle numbers (first :: rest) ∧
      g.checkRecursion =
        { g with cycle := some numbers, diagnostics := g.diagnostics ++ [report] } ∧
      report.code = some Diagnostic.recursionCode ∧ report.level = .error ∧
      report.span = first.caller.span ∧
      report.message = "found recursive function calls:\n" ++
        String.join ((first :: rest).map fun e => e.caller.name ++ " -> " ++ e.callee.name ++ "\n") ++
        "recursive calls can be used in a gas limit attack and are forbidden in the safe subset" ∧
      report.related = (first :: rest).map fun e =>
        ⟨e.caller.span, "\x60" ++ e.caller.name ++ "\x60 calls \x60" ++ e.callee.name ++ "\x60"⟩) ∧
    (¬ g.Recursive → g.checkRecursion = g) ∧
    (∃ n, Tally u g n) ∧ (∀ n, Tally u g n → g.diagnostics.length = n) ∧
    (∀ v w, (∃ e ∈ g.edges, e.Joins v w) → g.insert v w = g) ∧
    ∀ v w, (¬ ∃ e ∈ g.edges, e.Joins v w) → g.erase v w = g := by
  have sound := history.sound
  refine ⟨sound.distinct, fun v w n => edgeNumber_eq_some sound,
    fun v => ⟨g.numbersWhere_ascending _, fun n => mem_outgoing⟩,
    fun v => ⟨g.numbersWhere_ascending _, fun n => mem_incoming⟩, ?_, ?_,
    checkRecursion_of_not_recursive, history.tally, fun n tally => tally.diagnostics,
    fun v w => insert_of_joins, fun v w => erase_of_not_joins⟩
  · intro numbers noted
    obtain ⟨es, elementary⟩ := sound.cycle numbers noted
    exact ⟨es, elementary.ne_nil, elementary⟩
  · intro recursive
    obtain ⟨numbers, first, rest, elementary, checked⟩ := checkRecursion_of_recursive recursive
    exact ⟨numbers, first, rest, recursionReport first rest, elementary, checked, rfl, rfl, rfl, rfl, rfl⟩

/-- A file with two functions that call each other, behind one that calls them. -/
def callingBack : Source :=
  "contract C \x7b function a() \x7b b(); \x7d function b() \x7b c(); \x7d function c() \x7b b(); \x7d \x7d".toList

theorem state_invariants_callingBack : ∃ u g es, (Source.parse callingBack).unit = .ok u ∧
    g = (Graph.empty.addUnit u).checkRecursion ∧ History u g ∧ g.cycle = some [1, 2] ∧
    g.ElementaryCycle [1, 2] es ∧ g.diagnostics.length = 1 ∧ Tally u g 1 := by
  have evaluated : (Source.parse callingBack).unit.toOption.map (fun u =>
      ((Graph.empty.addUnit u).checkRecursion.cycle,
        (Graph.empty.addUnit u).checkRecursion.diagnostics.length)) = some (some [1, 2], 1) := by
    decide +kernel
  cases parsed : (Source.parse callingBack).unit with
  | error f => simp [parsed, Except.toOption] at evaluated
  | ok u =>
      simp only [parsed, Except.toOption, Option.map_some, Option.some.injEq, Prod.mk.injEq]
        at evaluated
      obtain ⟨cycle, reports⟩ := evaluated
      have history : History u (Graph.empty.addUnit u).checkRecursion := .check (.addUnit .empty)
      obtain ⟨-, -, -, -, noted, -, -, ⟨n, tally⟩, counted, -⟩ := state_invariants history
      obtain ⟨es, -, elementary⟩ := noted [1, 2] cycle
      obtain rfl : n = 1 := (counted n tally).symm.trans reports
      exact ⟨u, _, es, rfl, rfl, history, cycle, elementary, reports, tally⟩

end Graph
end SafeSubset.Calls
