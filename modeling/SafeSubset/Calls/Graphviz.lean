import SafeSubset.Calls.Graph

/-! The graph in the language of Graphviz: a cluster for each contract, a node
for each function, and the edges of a reported cycle in red. -/
namespace SafeSubset.Calls

/-- The functions in runs of one contract. -/
def runs : List Listed → List (List Listed)
  | [] => []
  | f :: fs =>
      match runs fs with
      | (g :: run) :: rest =>
          if f.contractId = g.contractId then (f :: g :: run) :: rest else [f] :: (g :: run) :: rest
      | rest => [f] :: rest

/-- A name in which every character that an identifier cannot hold is an
underscore. -/
def identifierText (name : String) : String :=
  String.ofList (name.toList.map fun c => if c.isAlphanum || c = '_' then c else '_')

/-- A label between its quotes. -/
def labelText (name : String) : String :=
  String.ofList (name.toList.flatMap fun c =>
    if c = '\\' then ['\\', '\\'] else if c = '"' then ['\\', '"'] else [c])

def nodeText (v : Vertex) : String := "fn" ++ toString v.id

/-- A string as an attribute's value. -/
def attributeText (s : String) : String := "\"" ++ s ++ "\""

def nodeLine (v : Vertex) : String :=
  "        " ++ nodeText v ++ " [label=" ++ attributeText (labelText v.name) ++ "];\n"

def clusterText (number : Nat) : List Listed → String
  | [] => ""
  | first :: rest =>
      "\n    subgraph cluster_" ++ toString number ++ "_" ++ identifierText first.contract
        ++ " \x7b\n        label=" ++ attributeText (labelText first.contract)
        ++ ";\n        style=rounded;\n        color=gray50;\n"
        ++ String.join ((first :: rest).map fun f => nodeLine f.function)
        ++ "    \x7d\n"

def edgeLine (red : Bool) (e : Edge) : String :=
  "    " ++ nodeText e.caller ++ " -> " ++ nodeText e.callee
    ++ (if red then " [color=red, penwidth=2]" else "") ++ ";\n"

namespace Graph

/-- The whole graph as Graphviz text. -/
def graphviz (g : Graph) : String :=
  let red := g.cycle.getD []
  "digraph callgraph \x7b\n    rankdir=LR;\n    node [fontname="
    ++ attributeText "Helvetica" ++ ", fontsize=10, shape=box, style=filled, fillcolor=lightblue];\n"
    ++ "    edge [fontname=" ++ attributeText "Helvetica" ++ ", fontsize=9];\n"
    ++ String.join ((runs g.functions).zipIdx.map fun c => clusterText c.2 c.1)
    ++ (if g.edges.isEmpty then "" else "\n")
    ++ String.join (g.edges.zipIdx.map fun e => edgeLine (e.2 ∈ red) e.1)
    ++ "\x7d\n"

end Graph
end SafeSubset.Calls
