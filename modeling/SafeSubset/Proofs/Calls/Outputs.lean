import SafeSubset.Calls.Listing
import SafeSubset.Proofs.Calls.Again
import SafeSubset.Proofs.Calls.Drawing
import SafeSubset.Proofs.Grammar.Names
import SafeSubset.Proofs.Json.Reading

/-! The three outputs of a graph: its lines, its JSON and its drawing. Each is read back, and
in every state that follows one addition of a file they tell of the same graph. -/
namespace SafeSubset.Calls

section Reading

/-- What the JSON text of a graph says: the functions with their contracts, the edges by
the numbers of their functions, and the numbers of the edges of a cycle. -/
structure Export where
  functions : List (Nat × String × String)
  edges : List (Nat × Nat)
  cycle : Option (List Nat)

namespace Export

def function? (j : Json) : Option (Nat × String × String) := do
  let id ← (← j.member? "id").number?
  let contract ← (← j.member? "contract").string?
  let name ← (← j.member? "name").string?
  return (id, contract, name)

def edge? (j : Json) : Option (Nat × Nat) := do
  let caller ← (← j.member? "caller").number?
  let callee ← (← j.member? "callee").number?
  return (caller, callee)

def cycle? : Json → Option (Option (List Nat))
  | .null => some none
  | j => do
      let ns ← (← j.items?).mapM Json.number?
      return some ns

def read? (text : String) : Option Export := do
  let j ← Json.read text
  let functions ← (← (← j.member? "functions").items?).mapM function?
  let edges ← (← (← j.member? "edges").items?).mapM edge?
  let cycle ← cycle? (← j.member? "cycle")
  return ⟨functions, edges, cycle⟩

end Export

/-- The two names on a line of the listing. -/
def listedNames? (line : Source) : Option (String × String) := do
  let callee ← (line.dropWhile (· ≠ ' ')).dropPrefix? " -> ".toList
  return (String.ofList (line.takeWhile (· ≠ ' ')), String.ofList callee)

/-- The names on the lines of a listing. -/
def readListing? (text : String) : Option (List (String × String)) :=
  (text.toList.splitOn '\n').dropLast.mapM listedNames?

end Reading

section Read

/-- Encoded items are read back where each one is. -/
theorem mapM_encoded {β γ δ : Type} {f : β → γ} {h : γ → Option δ} {k : β → δ}
    {xs : List β} (each : ∀ x ∈ xs, h (f x) = some (k x)) : (xs.map f).mapM h = some (xs.map k) := by
  induction xs with
  | nil => rfl
  | cons x xs ih =>
      have others := ih fun y member => each y (List.mem_cons_of_mem x member)
      simp [each x List.mem_cons_self, others]

theorem Listed.read_toJson (f : Listed) :
    Export.function? f.toJson = some (f.function.id, f.contract, f.function.name) := by
  simp [Export.function?, toJson, Json.member?, List.lookup_cons, Json.number?, Json.string?]

theorem Edge.read_toJson (e : Edge) : Export.edge? e.toJson = some e.ends := by
  simp [Export.edge?, toJson, Json.member?, List.lookup_cons, Json.number?, ends]

theorem Export.read_cycle (cycle : Option (List Nat)) :
    cycle? (Json.ofOption (fun ns => .array (ns.map .number)) cycle) = some cycle := by
  cases cycle with
  | none => rfl
  | some ns =>
      have numbers : (ns.map Json.number).mapM Json.number? = some (ns.map id) :=
        mapM_encoded fun _ _ => rfl
      simp [cycle?, Json.ofOption, Json.items?, numbers]

theorem Graph.read_toJson (g : Graph) : Export.read? g.toJson.pretty =
    some ⟨g.functions.map fun f => (f.function.id, f.contract, f.function.name),
      g.edges.map Edge.ends, g.cycle⟩ := by
  have functions := mapM_encoded fun f (_ : f ∈ g.functions) => f.read_toJson
  have edges := mapM_encoded fun e (_ : e ∈ g.edges) => e.read_toJson
  simp [Export.read?, Json.read_pretty, Graph.toJson, Json.member?, List.lookup_cons, Json.items?,
    functions, edges, Export.read_cycle]

theorem Edge.read_text {e : Edge} (caller : ' ' ∉ e.caller.name.toList) :
    listedNames? e.text.toList = some (e.caller.name, e.callee.name) := by
  have text : e.text.toList = e.caller.name.toList ++ (" -> ".toList ++ e.callee.name.toList) := by
    simp [Edge.text]
  have all : ∀ c ∈ e.caller.name.toList, decide (c ≠ ' ') = true := by
    intro c member
    refine decide_eq_true ?_
    rintro rfl
    exact caller member
  have taken : (" -> ".toList ++ e.callee.name.toList).takeWhile (· ≠ ' ') = [] := by simp
  have dropped : (" -> ".toList ++ e.callee.name.toList).dropWhile (· ≠ ' ') =
      " -> ".toList ++ e.callee.name.toList := by simp
  unfold listedNames?
  simp only [text, List.takeWhile_append_of_pos all, List.dropWhile_append_of_pos all, taken, dropped,
    Line.dropPrefix_append, List.append_nil, String.ofList_toList, Option.bind_eq_bind, Option.bind_some]
  rfl

/-- The lines of the listing, where no name has a space or a line break in it. -/
theorem Graph.read_listing {g : Graph} (whole : ∀ e ∈ g.edges, ' ' ∉ e.caller.name.toList ∧
    '\n' ∉ e.caller.name.toList ∧ '\n' ∉ e.callee.name.toList) :
    readListing? g.listing = some (g.edges.map fun e => (e.caller.name, e.callee.name)) := by
  have text : g.listing.toList = (g.edges.map fun e => e.text.toList).flatMap (· ++ ['\n']) := by
    rw [Graph.listing, String.toList_join, List.flatMap_map, List.flatMap_map]
    simp
  have lines : ∀ l ∈ g.edges.map (fun e => e.text.toList), '\n' ∉ l := by
    intro l member
    obtain ⟨e, inside, rfl⟩ := List.mem_map.1 member
    simp [Edge.text, (whole e inside).2]
  rw [readListing?, text, splitOn_lines lines, List.dropLast_concat]
  exact mapM_encoded fun e member => Edge.read_text (whole e member).1

end Read

section Runs

theorem exists_runs (f : Listed) (fs : List Listed) : ∃ run rest, runs (f :: fs) = (f :: run) :: rest := by
  rw [runs]
  split
  · split
    · exact ⟨_, _, rfl⟩
    · exact ⟨_, _, rfl⟩
  · exact ⟨_, _, rfl⟩

/-- Functions of one contract in front of one of another contract, or of none, are a run. -/
theorem runs_append {k : Nat} {r rest : List Listed} (some : r ≠ [])
    (same : ∀ f ∈ r, f.contractId = k) (apart : ∀ f ∈ rest.head?, f.contractId ≠ k) :
    runs (r ++ rest) = r :: runs rest := by
  induction r with
  | nil => contradiction
  | cons f r ih =>
      have own := same f List.mem_cons_self
      cases r with
      | nil =>
          cases rest with
          | nil => rfl
          | cons g rest =>
              obtain ⟨run, others, first⟩ := exists_runs g rest
              have other : f.contractId ≠ g.contractId := own ▸ (apart g rfl).symm
              rw [List.singleton_append, runs, first]
              exact if_neg other
      | cons g r =>
          have next := same g (List.mem_cons_of_mem f List.mem_cons_self)
          have later := ih (List.cons_ne_nil g r) fun h member => same h (List.mem_cons_of_mem f member)
          rw [List.cons_append] at later
          rw [List.cons_append, List.cons_append, runs, later]
          exact if_pos (own.trans next.symm)

variable {α : Type}

/-- The functions of a contract. -/
def contractListed (c : Contract α) : List Listed :=
  c.functions.map fun f => ⟨c.id, c.name.text, .of f⟩

theorem contractId_of_mem {c : Contract α} : ∀ f ∈ contractListed c, f.contractId = c.id := by
  intro f member
  obtain ⟨h, -, rfl⟩ := List.mem_map.1 member
  rfl

/-- The functions of each contract that has any are a run. -/
theorem runs_listed {cs : List (Contract α)} (distinct : (cs.map Contract.id).Nodup) :
    runs (cs.flatMap contractListed) =
      (cs.filter fun c => !c.functions.isEmpty).map contractListed := by
  induction cs with
  | nil => rfl
  | cons c cs ih =>
      obtain ⟨own, distinct⟩ := List.nodup_cons.1 distinct
      rw [List.flatMap_cons]
      by_cases none : c.functions = []
      · simpa [contractListed, none] using ih distinct
      · have some : contractListed c ≠ [] := mt List.map_eq_nil_iff.1 none
        have apart : ∀ f ∈ (cs.flatMap contractListed).head?, f.contractId ≠ c.id := by
          intro f head same
          obtain ⟨d, later, inD⟩ := List.mem_flatMap.1 (List.mem_of_mem_head? head)
          exact own (List.mem_map.2 ⟨d, later, (contractId_of_mem f inD).symm.trans same⟩)
        rw [runs_append some contractId_of_mem apart, ih distinct]
        simp [none]

end Runs

namespace Graph

variable {α : Type} {u : SourceUnit α} {g : Graph}

theorem erase_functions (g : Graph) (v w : Vertex) : (g.erase v w).functions = g.functions := by
  unfold erase
  split <;> rfl

/-- The states that follow one addition of a file, with edges added and removed between its
functions, and with checks. -/
inductive Follow (u : SourceUnit α) : Graph → Prop
  | build : Follow u (Graph.empty.addUnit u)
  | insert {g : Graph} {caller callee : FunctionDef α} : Follow u g →
      caller ∈ u.functions → callee ∈ u.functions →
      Follow u (g.insert (.of caller) (.of callee))
  | erase {g : Graph} {caller callee : FunctionDef α} : Follow u g →
      caller ∈ u.functions → callee ∈ u.functions →
      Follow u (g.erase (.of caller) (.of callee))
  | check {g : Graph} : Follow u g → Follow u g.checkRecursion

namespace Follow

theorem history (follow : Follow u g) : History u g := by
  induction follow with
  | build => exact .addUnit .empty
  | insert _ caller callee ih => exact .insert ih caller callee
  | erase _ caller callee ih => exact .erase ih caller callee
  | check _ ih => exact .check ih

theorem functions (follow : Follow u g) : g.functions = unitListed u := by
  induction follow with
  | build => rw [addUnit_functions]; rfl
  | insert _ _ _ ih => rw [insert_functions, ih]
  | erase _ _ _ ih => rw [erase_functions, ih]
  | check _ ih => rw [checkRecursion_functions, ih]

end Follow

/-- Each number of a recorded cycle is that of an edge. -/
theorem Sound.lt_of_mem_cycle (sound : g.Sound) {ns : List Nat} {n : Nat} (noted : g.cycle = some ns)
    (member : n ∈ ns) : n < g.edges.length := by
  obtain ⟨es, elementary⟩ := sound.cycle ns noted
  have found : g.edges[n]? ∈ es.map some := elementary.edges ▸ List.mem_map_of_mem member
  obtain ⟨e, -, same⟩ := List.mem_map.1 found
  exact (List.getElem?_eq_some_iff.1 same.symm).1

end Graph

section Files

variable {source : Source} {u : SourceUnit Unit} {g : Graph}

/-- Of which characters no name in a file has any. -/
theorem not_mem_of_spells {name : String} (word : Token.Kind.identifier.Spells name.toList) :
    ' ' ∉ name.toList ∧ '\n' ∉ name.toList := by
  constructor
  · intro member
    exact absurd (word.rest ' ' member) (by decide)
  · intro member
    exact absurd (word.rest '\n' member) (by decide)

theorem names_of_parse (read : source.parse.unit = .ok u) : ∀ f ∈ unitListed u,
    '\n' ∉ f.contract.toList ∧ '\n' ∉ f.function.name.toList := by
  intro f member
  obtain ⟨c, inU, inC⟩ := List.mem_flatMap.1 member
  obtain ⟨h, inside, rfl⟩ := List.mem_map.1 inC
  have function : h ∈ u.functions := List.mem_flatMap.2 ⟨c, inU, inside⟩
  exact ⟨(not_mem_of_spells (source.spells_of_contract read inU)).2,
    (not_mem_of_spells (source.spells_of_function read function)).2⟩

/-- What is one of some pairwise different things stands in one of the lists that they are
put together from. -/
theorem filter_eq_singleton {β κ : Type} [DecidableEq κ] {xs : List β} {f : β → List κ} {k : κ}
    (distinct : (xs.flatMap f).Nodup) (member : k ∈ xs.flatMap f) :
    ∃ x, xs.filter (fun x => k ∈ f x) = [x] := by
  induction xs with
  | nil => cases member
  | cons x xs ih =>
      rw [List.flatMap_cons] at distinct member
      obtain ⟨-, later, apart⟩ := List.nodup_append.1 distinct
      by_cases here : k ∈ f x
      · refine ⟨x, ?_⟩
        have none : xs.filter (fun x => k ∈ f x) = [] := by
          refine List.filter_eq_nil_iff.2 fun y inside there => ?_
          have second : k ∈ xs.flatMap f := List.mem_flatMap.2 ⟨y, inside, by simpa using there⟩
          exact apart k here k second rfl
        simp [here, none]
      · obtain ⟨y, only⟩ := ih later ((List.mem_append.1 member).resolve_left here)
        exact ⟨y, by simpa [here] using only⟩

namespace Graph

theorem drawn_ends (g : Graph) : (g.edges.zipIdx.map fun e =>
    (e.1.ends, decide (e.2 ∈ g.cycle.getD []))).map Prod.fst = g.edges.map Edge.ends := by
  calc
    _ = (g.edges.zipIdx.map Prod.fst).map Edge.ends := by
      rw [List.map_map, List.map_map]
      rfl
    _ = _ := by rw [List.zipIdx_map_fst]

/-- The edges of a recorded cycle are red, and no others are. -/
theorem Sound.red_iff (sound : g.Sound) {n : Nat} :
    (∃ ends, (g.edges.zipIdx.map fun e => (e.1.ends, decide (e.2 ∈ g.cycle.getD [])))[n]? =
      some (ends, true)) ↔ ∃ ns, g.cycle = some ns ∧ n ∈ ns := by
  simp only [List.getElem?_map, List.getElem?_zipIdx, Nat.zero_add, Option.map_map,
    Option.map_eq_some_iff, Function.comp_apply]
  constructor
  · rintro ⟨ends, e, -, pair⟩
    have red : n ∈ g.cycle.getD [] := of_decide_eq_true (Prod.mk.inj pair).2
    cases noted : g.cycle with
    | none => simp [noted] at red
    | some ns => exact ⟨ns, rfl, by simpa [noted] using red⟩
  · rintro ⟨ns, noted, member⟩
    have bound := sound.lt_of_mem_cycle noted member
    exact ⟨g.edges[n].ends, g.edges[n], List.getElem?_eq_getElem bound, by simp [noted, member]⟩

theorem clusters_listed (distinct : (u.contracts.map Contract.id).Nodup) :
    ((runs (unitListed u)).zipIdx.map fun c => Cluster.of c.2 c.1) =
      (u.contracts.filter fun c => !c.functions.isEmpty).zipIdx.map fun c =>
        ⟨c.2, identifierText c.1.name.text, [c.1.name.text],
          c.1.functions.map fun f => (f.id, f.name.display)⟩ := by
  have listed : unitListed u = u.contracts.flatMap contractListed := rfl
  rw [listed, runs_listed distinct, List.zipIdx_map, List.map_map]
  refine List.map_congr_left ?_
  rintro ⟨c, number⟩ member
  have some := (List.mem_filter.1 (List.fst_mem_of_mem_zipIdx member)).2
  cases functions : c.functions with
  | nil => simp [functions] at some
  | cons f fs => simp [Cluster.of, contractListed, functions, Vertex.of]

/-- Where no two functions have one number, each is declared once, in one cluster. -/
theorem declared_once {fs : List Listed} {id : Nat} (distinct : (fs.map fun f => f.function.id).Nodup)
    (member : id ∈ fs.map fun f => f.function.id) :
    ((fs.map fun f => (f.function.id, f.function.name)).map Prod.fst).count id = 1 ∧
      ∃ c, ((runs fs).zipIdx.map fun c => Cluster.of c.2 c.1).filter
        (fun c => id ∈ c.nodes.map Prod.fst) = [c] := by
  have nodes : (fs.map fun f => (f.function.id, f.function.name)).map Prod.fst =
      fs.map fun f => f.function.id := by
    simp [Function.comp_def]
  constructor
  · rw [nodes]
    exact List.count_eq_one_of_mem distinct member
  · rw [← nodes, ← nodes_clusters, List.map_flatMap] at distinct member
    exact filter_eq_singleton distinct member

/-- The three outputs of a graph in a state that follows one addition of a file. The edges that
the JSON text and the drawing give are those of the graph, in their order, and the listing gives
them by the names of their functions. The cycle in the JSON text is the recorded one, and the
edges drawn in red are those whose numbers it has. There is a cluster for each contract that
defines a function, in source order, whatever its name, and in it a node for each of its
functions; no node stands outside the clusters, and the JSON text gives the same functions. So
each end of an edge is declared once, in one cluster. -/
theorem outputs_agree (read : source.parse.unit = .ok u) (follow : Follow u g) :
    ∃ json drawing, Export.read? g.toJson.pretty = some json ∧ Drawing.read g.graphviz = drawing ∧
      json.edges = g.edges.map Edge.ends ∧ drawing.edges.map Prod.fst = g.edges.map Edge.ends ∧
      readListing? g.listing = some (g.edges.map fun e => (e.caller.name, e.callee.name)) ∧
      (∀ e ∈ g.edges, ∃ f ∈ u.functions, ∃ h ∈ u.functions, e = ⟨.of f, .of h⟩) ∧
      json.cycle = g.cycle ∧
      (∀ n, (∃ ends, drawing.edges[n]? = some (ends, true)) ↔ ∃ ns, g.cycle = some ns ∧ n ∈ ns) ∧
      drawing.clusters = (u.contracts.filter fun c => !c.functions.isEmpty).zipIdx.map (fun c =>
        ⟨c.2, identifierText c.1.name.text, [c.1.name.text],
          c.1.functions.map fun f => (f.id, f.name.display)⟩) ∧
      drawing.nodes = drawing.clusters.flatMap Cluster.nodes ∧
      json.functions = u.contracts.flatMap (fun c =>
        c.functions.map fun f => (f.id, c.name.text, f.name.display)) ∧
      ∀ e ∈ g.edges, ∀ v ∈ [e.caller, e.callee], (drawing.nodes.map Prod.fst).count v.id = 1 ∧
        ∃ c, drawing.clusters.filter (fun c => v.id ∈ c.nodes.map Prod.fst) = [c] := by
  have listed := follow.functions
  have ends : ∀ e ∈ g.edges, ∃ f ∈ u.functions, ∃ h ∈ u.functions, e = ⟨.of f, .of h⟩ := by
    intro e member
    obtain ⟨⟨f, first, caller⟩, h, second, callee⟩ := follow.history.within e member
    exact ⟨f, first, h, second, by rw [caller, callee]⟩
  have drawing := g.read_graphviz (listed ▸ names_of_parse read)
  refine ⟨_, _, g.read_toJson, drawing, rfl, g.drawn_ends, ?_, ends, rfl,
    fun n => follow.history.sound.red_iff, ?_, (nodes_clusters g.functions).symm, ?_, ?_⟩
  · apply read_listing
    intro e member
    obtain ⟨f, first, h, second, rfl⟩ := ends e member
    obtain ⟨space, line⟩ := not_mem_of_spells (source.spells_of_function read first)
    exact ⟨space, line, (not_mem_of_spells (source.spells_of_function read second)).2⟩
  · rw [listed]
    exact clusters_listed (source.parse_contract_numbers read)
  · rw [listed]
    simp [unitListed, List.map_flatMap, Function.comp_def, Vertex.of]
  · intro e member v isEnd
    have distinct := nodup_unitListed read
    have declared : ∀ k ∈ u.functions, k.id ∈ (unitListed u).map fun l => l.function.id := by
      rw [ids_unitListed]
      exact fun k inside => List.mem_map_of_mem inside
    obtain ⟨f, first, h, second, rfl⟩ := ends e member
    simp only [List.mem_cons, List.not_mem_nil, or_false] at isEnd
    rw [listed]
    rcases isEnd with rfl | rfl
    · exact declared_once distinct (declared f first)
    · exact declared_once distinct (declared h second)

/-- A file in which two contracts share a name and a third defines no function. -/
def sharedContractName : Source :=
  ("contract A \x7b function f() \x7b g(); \x7d function g() \x7b f(); \x7d \x7d " ++
    "contract B \x7b \x7d contract A \x7b function h() \x7b \x7d \x7d").toList

/-- The graph of a file of three functions after the edge between the first two has been removed,
a cycle through all three has been added and found, and the edge has been added again. -/
def rewired (u : SourceUnit Unit) : Graph :=
  match u.functions with
  | [f, g, h] =>
      (((((Graph.empty.addUnit u).erase (.of f) (.of g)).insert (.of f) (.of h)).insert (.of h)
        (.of g)).checkRecursion).insert (.of f) (.of g)
  | _ => .empty

theorem outputs_agree_rewired : ∃ u g json drawing, sharedContractName.parse.unit = .ok u ∧ Follow u g ∧
    g.edges.map Edge.ends = [(2, 1), (1, 5), (5, 2), (1, 2)] ∧ g.cycle = some [0, 1, 2] ∧
    Export.read? g.toJson.pretty = some json ∧ Drawing.read g.graphviz = drawing ∧
    json.edges = [(2, 1), (1, 5), (5, 2), (1, 2)] ∧ json.cycle = some [0, 1, 2] ∧
    drawing.edges.map Prod.fst = [(2, 1), (1, 5), (5, 2), (1, 2)] ∧
    (∃ ends, drawing.edges[2]? = some (ends, true)) ∧
    (¬ ∃ ends, drawing.edges[3]? = some (ends, true)) ∧
    drawing.clusters.map (fun c => (c.number, c.titles)) = [(0, ["A"]), (1, ["A"])] := by
  have evaluated : sharedContractName.parse.unit.toOption.any (fun u =>
      u.functions.length == 3 && (rewired u).edges.map Edge.ends == [(2, 1), (1, 5), (5, 2), (1, 2)] &&
        (rewired u).cycle == some [0, 1, 2] &&
        (u.contracts.filter fun c => !c.functions.isEmpty).zipIdx.map
          (fun c => (c.2, [c.1.name.text])) == [(0, ["A"]), (1, ["A"])]) = true := by
    decide +kernel
  obtain ⟨u, read, values⟩ := exists_of_any evaluated
  simp only [Bool.and_eq_true, beq_iff_eq] at values
  obtain ⟨⟨⟨three, edges⟩, cycle⟩, contracts⟩ := values
  have follow : Follow u (rewired u) := by
    obtain ⟨f, g, h, functions⟩ := List.length_eq_three.1 three
    have first : f ∈ u.functions := by simp [functions]
    have second : g ∈ u.functions := by simp [functions]
    have third : h ∈ u.functions := by simp [functions]
    have linked := ((Follow.build.erase first second).insert first third).insert third second
    simpa only [rewired, functions] using linked.check.insert first second
  obtain ⟨json, drawing, exported, drawn, ends, ends', -, -, noted, red, clusters, -⟩ :=
    outputs_agree read follow
  refine ⟨u, _, json, drawing, read, follow, edges, cycle, exported, drawn, ends.trans edges,
    noted.trans cycle, ends'.trans edges, (red 2).2 ⟨_, cycle, by decide⟩, ?_, ?_⟩
  · intro last
    obtain ⟨ns, same, member⟩ := (red 3).1 last
    obtain rfl := Option.some.inj (cycle.symm.trans same)
    exact absurd member (by decide)
  · rw [clusters, List.map_map]
    exact contracts

end Graph
end Files
end SafeSubset.Calls
