import SafeSubset.Calls.Graph

/-! The graph as a list of lines, and as JSON. -/
namespace SafeSubset.Calls

def Listed.toJson (f : Listed) : Json :=
  .object [("id", .number f.function.id), ("contract", .string f.contract),
    ("name", .string f.function.name)]

def Edge.toJson (e : Edge) : Json :=
  .object [("caller", .number e.caller.id), ("callee", .number e.callee.id)]

namespace Graph

/-- One line for each edge. -/
def listing (g : Graph) : String := String.join (g.edges.map fun e => e.text ++ "\n")

def toJson (g : Graph) : Json :=
  .object
    [("functions", .array (g.functions.map Listed.toJson)),
     ("edges", .array (g.edges.map Edge.toJson)),
     ("cycle", Json.ofOption (fun ns => .array (ns.map .number)) g.cycle),
     ("diagnostics", .array (g.diagnostics.map Diagnostic.toJson))]

end Graph
end SafeSubset.Calls
