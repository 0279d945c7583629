import SafeSubset.Calls.Cycle

/-! The check for recursion. A cycle of calls is an error, because nothing
bounds the gas that it uses. -/
namespace SafeSubset.Calls

/-- What is said about a cycle of edges. -/
def recursionMessage (edges : List Edge) : String :=
  "found recursive function calls:\n" ++ String.join (edges.map fun e => e.text ++ "\n")
    ++ "recursive calls can be used in a gas limit attack and are forbidden in the safe subset"

def callLabel (e : Edge) : String :=
  "\x60" ++ e.caller.name ++ "\x60 calls \x60" ++ e.callee.name ++ "\x60"

/-- The report of a cycle, at the function with which it starts. -/
def recursionReport (first : Edge) (rest : List Edge) : Diagnostic :=
  let edges := first :: rest
  { code := some Diagnostic.recursionCode
    level := .error
    span := first.caller.span
    message := recursionMessage edges
    hint := some "rewrite the recursion as a bounded loop"
    related := edges.map fun e => ⟨e.caller.span, callLabel e⟩ }

namespace Graph

/-- The edges of the given numbers. -/
def edgesAt (g : Graph) (numbers : List Nat) : List Edge := numbers.filterMap (g.edges[·]?)

/-- Takes note of a cycle and reports it. -/
def noteCycle (g : Graph) (cycle : List Nat) : Graph :=
  match g.edgesAt cycle with
  | first :: rest =>
      { g with
        cycle := some cycle
        diagnostics := g.diagnostics ++ [recursionReport first rest] }
  | [] => g

/-- Looks for a cycle, and reports the first one found. -/
def checkRecursion (g : Graph) : Graph :=
  match g.findCycle? with
  | some cycle => g.noteCycle cycle
  | none => g

end Graph
end SafeSubset.Calls
