import SafeSubset.Proofs.Calls.Building
import SafeSubset.Proofs.Syntax.Stripped
import SafeSubset.Review

/-! The graph without places. Functions are told apart by their numbers and called by
their names, so a file without places has the graph of the file without places: the same
edges in the same order, the same cycle and the same reports. -/
namespace SafeSubset

def Related.stripped (r : Related) : Related := { r with span := .point 0 }

def Diagnostic.stripped (d : Diagnostic) : Diagnostic :=
  { d with span := .point 0, related := d.related.map Related.stripped }

namespace Calls

variable {α : Type}

def Vertex.stripped (v : Vertex) : Vertex := { v with span := .point 0 }

def Edge.stripped (e : Edge) : Edge := ⟨e.caller.stripped, e.callee.stripped⟩

def Listed.stripped (f : Listed) : Listed := { f with function := f.function.stripped }

/-- A graph without the places of its functions and reports. -/
def Graph.stripped (g : Graph) : Graph where
  functions := g.functions.map Listed.stripped
  edges := g.edges.map Edge.stripped
  cycle := g.cycle
  diagnostics := g.diagnostics.map Diagnostic.stripped

theorem Vertex.of_stripped (f : FunctionDef α) : Vertex.of f.stripped = (Vertex.of f).stripped := by
  cases name : f.name <;>
    simp [Vertex.of, FunctionDef.stripped, name, FunctionName.stripped, FunctionName.display,
      Vertex.stripped, Ident.bare]

section Edges

theorem Graph.edgeNumber_stripped (g : Graph) (v w : Vertex) :
    g.stripped.edgeNumber? v.stripped w.stripped = g.edgeNumber? v w := by
  simp only [edgeNumber?, Graph.stripped, List.findIdx?_map]
  rfl

theorem Graph.insert_stripped (g : Graph) (v w : Vertex) :
    g.stripped.insert v.stripped w.stripped = (g.insert v w).stripped := by
  simp only [insert, edgeNumber_stripped]
  split
  · rfl
  · simp [Graph.stripped, Edge.stripped]

theorem Graph.insertAll_stripped (g : Graph) (es : List Edge) :
    g.stripped.insertAll (es.map Edge.stripped) = (g.insertAll es).stripped := by
  induction es generalizing g with
  | nil => rfl
  | cons e es ih =>
      show (g.stripped.insert e.caller.stripped e.callee.stripped).insertAll (es.map Edge.stripped) = _
      rw [insert_stripped, ih]
      rfl

end Edges

section Calls

theorem calledName_stripped (e : Expr α) : calledName? e.stripped = calledName? e := by
  cases e with
  | call i callee args names => exact callee.name_stripped
  | index i base k => cases k <;> rfl
  | _ => rfl

theorem target_stripped (c : Contract α) (name : String) :
    target c.stripped name = (target c name).map Vertex.stripped := by
  have own : ∀ f : FunctionDef α, callName f.stripped = callName f := by
    intro f
    cases name : f.name <;>
      simp [callName, FunctionDef.stripped, name, FunctionName.stripped, FunctionName.ident?, Ident.bare]
  simp only [target, resolve, Contract.functions_stripped, List.find?_map, Option.map_map,
    Function.comp_def, own, Vertex.of_stripped]

/-- The calls in a contract give the same edges without places. -/
theorem contractSites_stripped (c : Contract α) :
    (contractSites c.stripped).map Site.edge = ((contractSites c).map Site.edge).map Edge.stripped := by
  simp only [contractSites, Contract.functions_stripped, List.flatMap_map, List.map_flatMap, sites,
    FunctionDef.expressions_stripped, List.filterMap_map, List.map_filterMap]
  refine List.flatMap_congr fun f _ => List.filterMap_congr fun e _ => ?_
  rw [Function.comp_apply, calledName_stripped]
  cases called : calledName? e with
  | none => rfl
  | some name =>
      rw [Option.bind_some, Option.bind_some, target_stripped]
      cases target c name <;> simp [Edge.stripped, Vertex.of_stripped]

theorem unitListed_stripped (u : SourceUnit α) :
    unitListed u.stripped = (unitListed u).map Listed.stripped := by
  simp only [unitListed, SourceUnit.contracts_stripped, List.flatMap_map, List.map_flatMap,
    Contract.functions_stripped, List.map_map, Function.comp_def, Vertex.of_stripped]
  rfl

theorem Graph.addUnit_stripped (g : Graph) (u : SourceUnit α) :
    g.stripped.addUnit u.stripped = (g.addUnit u).stripped := by
  have edges : (unitSites u.stripped).map Site.edge = ((unitSites u).map Site.edge).map Edge.stripped := by
    simp only [unitSites, SourceUnit.contracts_stripped, List.flatMap_map, List.map_flatMap,
      contractSites_stripped]
  rw [addUnit_eq, addUnit_eq, edges, insertAll_stripped, unitListed_stripped]
  simp [Graph.stripped]

end Calls

namespace Graph

theorem successors_stripped (g : Graph) : g.stripped.successors = g.successors := by
  funext edge
  have outgoing : ∀ v : Vertex, g.stripped.outgoing v.stripped = g.outgoing v := by
    intro v
    simp only [Graph.outgoing, numbersWhere, Graph.stripped, List.zipIdx_map, List.filter_map,
      List.map_map]
    rfl
  unfold successors
  rw [show g.stripped.edges[edge]? = g.edges[edge]?.map Edge.stripped from List.getElem?_map ..]
  cases g.edges[edge]? with
  | none => rfl
  | some e => exact outgoing e.callee

theorem findCycle_stripped (g : Graph) : g.stripped.findCycle? = g.findCycle? := by
  simp only [findCycle?, successors_stripped]
  simp [Graph.stripped]

theorem edgesAt_stripped (g : Graph) (numbers : List Nat) :
    g.stripped.edgesAt numbers = (g.edgesAt numbers).map Edge.stripped := by
  simp only [edgesAt, Graph.stripped, List.getElem?_map, List.map_filterMap]

theorem recursionMessage_stripped (es : List Edge) :
    recursionMessage (es.map Edge.stripped) = recursionMessage es := by
  have lines : (es.map Edge.stripped).map (fun e => e.text ++ "\n") = es.map fun e => e.text ++ "\n" := by
    rw [List.map_map]
    rfl
  unfold recursionMessage
  rw [lines]

theorem recursionReport_stripped (first : Edge) (rest : List Edge) :
    recursionReport first.stripped (rest.map Edge.stripped) = (recursionReport first rest).stripped := by
  simp only [recursionReport, Diagnostic.stripped, ← List.map_cons, recursionMessage_stripped,
    List.map_map]
  rfl

theorem noteCycle_stripped (g : Graph) (cycle : List Nat) :
    g.stripped.noteCycle cycle = (g.noteCycle cycle).stripped := by
  unfold noteCycle
  rw [edgesAt_stripped]
  cases g.edgesAt cycle with
  | nil => rfl
  | cons first rest => simp [Graph.stripped, recursionReport_stripped]

/-- The check finds the same cycle without places, and reports the same. -/
theorem checkRecursion_stripped (g : Graph) :
    g.stripped.checkRecursion = g.checkRecursion.stripped := by
  unfold checkRecursion
  rw [findCycle_stripped]
  cases g.findCycle? with
  | none => rfl
  | some cycle => exact g.noteCycle_stripped cycle

theorem isClean_stripped (g : Graph) : g.stripped.isClean = g.isClean := by
  simp only [isClean, Diagnostic.onlyWarnings, Graph.stripped, List.all_map]
  rfl

end Graph
end Calls

/-- A file without places has the graph of the file, without places. -/
theorem SourceUnit.callGraph_stripped {α : Type} (u : SourceUnit α) (check : Bool) :
    u.stripped.callGraph check = (u.callGraph check).stripped := by
  have added : Calls.Graph.empty.addUnit u.stripped = (Calls.Graph.empty.addUnit u).stripped :=
    Calls.Graph.empty.addUnit_stripped u
  cases check with
  | false => exact added
  | true =>
      show (Calls.Graph.empty.addUnit u.stripped).checkRecursion = _
      rw [added, Calls.Graph.checkRecursion_stripped]
      rfl

end SafeSubset
