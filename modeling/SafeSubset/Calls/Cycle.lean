import SafeSubset.Calls.Graph

/-! Search for a cycle of edges. The search goes depth first from each edge in
turn, along the edges that leave its end, in the order of their numbers. It
stops when the next edge is already on its path. An edge that it has left
behind leads to no cycle and is not entered again. -/
namespace SafeSubset.Calls

/-- The edges on the path of a search, the last one first, each with the
successors not yet tried. -/
abbrev Trail := List (Nat × List Nat)

namespace Trail

/-- The edges of the path, the last one first. -/
def edges (t : Trail) : List Nat := t.map Prod.fst

/-- The part of the path from an edge on, in path order. -/
def since (t : Trail) (edge : Nat) : List Nat := t.edges.reverse.dropWhile (· ≠ edge)

/-- The next edge to look at, with the path that it follows: one that is on
that path, or one that has not been entered. Where the end of the path has no
such successor left, the search goes back by one edge. -/
def next? (unmet : List Nat) : Trail → Option (Nat × Trail)
  | [] => none
  | (edge, untried) :: outer =>
      match untried.dropWhile fun n => n ∉ edge :: edges outer ∧ n ∉ unmet with
      | next :: untried => some (next, (edge, untried) :: outer)
      | [] => next? unmet outer

end Trail

/-- How a search ends. -/
inductive Search where
  | cycle (edges : List Nat)
  /-- No cycle; the edges that were not entered remain. -/
  | clear (unmet : List Nat)
  deriving DecidableEq, Repr

/-- Goes on with a search. Edges in `unmet` have not been entered; as each
step enters one of them, there are no more steps than that, and a last one that
finds nothing. -/
def search (successors : Nat → List Nat) :
    (limit : Nat) → (unmet : List Nat) → Trail → Search
  | 0, unmet, _ => .clear unmet
  | limit + 1, unmet, trail =>
      match trail.next? unmet with
      | none => .clear unmet
      | some (next, trail) =>
          if next ∈ trail.edges then .cycle (trail.since next)
          else search successors limit (unmet.erase next) ((next, successors next) :: trail)

/-- The first cycle met from the given edges, where those not in `unmet` have
been entered before. -/
def firstCycle? (successors : Nat → List Nat) : (starts unmet : List Nat) → Option (List Nat)
  | [], _ => none
  | start :: starts, unmet =>
      if start ∈ unmet then
        match search successors unmet.length (unmet.erase start) [(start, successors start)] with
        | .cycle edges => some edges
        | .clear unmet => firstCycle? successors starts unmet
      else firstCycle? successors starts unmet

namespace Graph

/-- The edges that leave the end of an edge. -/
def successors (g : Graph) (edge : Nat) : List Nat :=
  match g.edges[edge]? with
  | some e => g.outgoing e.callee
  | none => []

/-- The first cycle of the graph, as the numbers of its edges. -/
def findCycle? (g : Graph) : Option (List Nat) :=
  let all := List.range g.edges.length
  firstCycle? g.successors all all

end Graph
end SafeSubset.Calls
