import SafeSubset.Proofs.Calls.Direct

/-! A file that is added again. Its edges are there, so neither they nor the cycle nor the
reports change; its functions are listed once for each time. -/
namespace SafeSubset.Calls

variable {α : Type} {u : SourceUnit α} {us : List (SourceUnit α)} {g : Graph}

theorem map_function_unitListed (u : SourceUnit α) :
    (unitListed u).map (fun l => l.function) = u.functions.map .of := by
  simp [unitListed, SourceUnit.functions, List.map_flatMap, Function.comp_def]

theorem ids_unitListed (u : SourceUnit α) :
    (unitListed u).map (fun l => l.function.id) = u.functions.map FunctionDef.id := by
  have ids := congrArg (List.map Vertex.id) (map_function_unitListed u)
  rwa [List.map_map, List.map_map] at ids

theorem unitListed_eq_nil : unitListed u = [] ↔ u.functions = [] := by
  rw [← List.map_eq_nil_iff (f := fun l => l.function), map_function_unitListed, List.map_eq_nil_iff]

namespace Graph

theorem insert_functions (g : Graph) (v w : Vertex) : (g.insert v w).functions = g.functions := by
  unfold insert
  split <;> rfl

theorem checkRecursion_functions (g : Graph) : g.checkRecursion.functions = g.functions := by
  unfold checkRecursion noteCycle
  split
  · split <;> rfl
  · rfl

theorem addUnit_functions (g : Graph) (u : SourceUnit α) :
    (g.addUnit u).functions = g.functions ++ unitListed u := by
  rw [addUnit_eq]

/-- The states that come about by adding files and edges and by checks, with the files that
have been added, in order. -/
inductive Growth : List (SourceUnit α) → Graph → Prop
  | empty : Growth [] .empty
  | addUnit {us : List (SourceUnit α)} {g : Graph} (u : SourceUnit α) :
      Growth us g → Growth (us ++ [u]) (g.addUnit u)
  | insert {us : List (SourceUnit α)} {g : Graph} (caller callee : Vertex) :
      Growth us g → Growth us (g.insert caller callee)
  | check {us : List (SourceUnit α)} {g : Graph} : Growth us g → Growth us g.checkRecursion

namespace Growth

/-- Each file has had its functions listed as often as it has been added. -/
theorem functions (grown : Growth us g) : g.functions = us.flatMap unitListed := by
  induction grown with
  | empty => rfl
  | addUnit u _ ih => rw [addUnit_functions, ih, List.flatMap_append, List.flatMap_singleton]
  | insert v w _ ih => rw [insert_functions, ih]
  | check _ ih => rw [checkRecursion_functions, ih]

/-- The edges of a file stay. -/
theorem joins (grown : Growth us g) (built : u ∈ us) :
    ∀ e ∈ (unitSites u).map Site.edge, ∃ f ∈ g.edges, f.Joins e.caller e.callee := by
  induction grown with
  | empty => cases built
  | @addUnit us g v _ ih =>
      intro e member
      by_cases earlier : u ∈ us
      · obtain ⟨f, there, joins⟩ := ih earlier e member
        exact ⟨f, (g.addUnit_extends v).1.subset there, joins⟩
      · obtain rfl : u = v := by simpa [earlier] using built
        rw [addUnit_eq]
        exact g.insertAll_joins member
  | @insert us g v w _ ih =>
      intro e member
      obtain ⟨f, there, joins⟩ := ih built e member
      exact ⟨f, (g.insert_extends v w).1.subset there, joins⟩
  | check _ ih =>
      rw [checkRecursion_edges]
      exact ih built

theorem addUnit_eq (grown : Growth us g) (built : u ∈ us) :
    g.addUnit u = { g with functions := g.functions ++ unitListed u } := by
  rw [Graph.addUnit_eq, insertAll_of_joins (grown.joins built)]

end Growth

/-- A list that is not empty has no repetition only if it stands alone. -/
theorem nodup_repeated {κ : Type} {ks : List κ} {us : List (SourceUnit α)} (some : us ≠ []) :
    (us.flatMap fun _ => ks).Nodup ↔ ks.Nodup ∧ (us.length = 1 ∨ ks = []) := by
  match us with
  | [u] => simp
  | u :: v :: us =>
      cases ks with
      | nil =>
          have none : ((u :: v :: us).flatMap fun _ => ([] : List κ)) = [] :=
            List.flatMap_eq_nil_iff.2 fun _ _ => rfl
          simp only [none, List.nodup_nil, or_true, and_self]
      | cons k ks => simp [List.nodup_append]

end Graph

section Files

variable {source : Source} {u : SourceUnit Unit} {us : List (SourceUnit Unit)}

theorem nodup_unitListed (read : source.parse.unit = .ok u) :
    ((unitListed u).map fun l => l.function.id).Nodup := by
  rw [ids_unitListed]
  exact source.parse_function_numbers read

namespace Graph

/-- In a state to which the file has been added, adding it once more leaves edges, cycle and
reports as they are and lists the functions of the file once more. So nothing changes if and
only if the file has no function. The functions are listed in the order in which the files
were added, each file's by contract in source order; where all of them are the one file, no
function is listed twice if and only if it was added once or has no function. -/
theorem addUnit_again (read : source.parse.unit = .ok u) (grown : Growth us g) (built : u ∈ us) :
    (g.addUnit u).edges = g.edges ∧ (g.addUnit u).cycle = g.cycle ∧
    (g.addUnit u).diagnostics = g.diagnostics ∧
    (g.addUnit u).functions = g.functions ++ unitListed u ∧
    (g.addUnit u = g ↔ u.functions = []) ∧
    g.functions = us.flatMap (fun v => v.contracts.flatMap fun c =>
      c.functions.map fun f => ⟨c.id, c.name.text, .of f⟩) ∧
    ((∀ v ∈ us, v = u) → ((g.functions.map fun l => l.function.id).Nodup ↔
      us = [u] ∨ u.functions = [])) := by
  have again := grown.addUnit_eq built
  refine ⟨?_, ?_, ?_, ?_, ?_, grown.functions, ?_⟩
  · rw [again]
  · rw [again]
  · rw [again]
  · rw [again]
  · rw [← unitListed_eq_nil, again]
    constructor
    · intro same
      have functions := congrArg Graph.functions same
      simpa using functions
    · intro none
      rw [none, List.append_nil]
  · intro alone
    have listed : us.flatMap unitListed = us.flatMap fun _ => unitListed u :=
      List.flatMap_congr fun v member => by rw [alone v member]
    have once : us = [u] ↔ us.length = 1 := by
      constructor
      · rintro rfl
        rfl
      · intro one
        obtain ⟨v, rfl⟩ := List.length_eq_one_iff.1 one
        rw [alone v (List.mem_singleton_self v)]
    rw [grown.functions, listed, List.map_flatMap, nodup_repeated (List.ne_nil_of_mem built), once,
      List.map_eq_nil_iff, unitListed_eq_nil]
    exact and_iff_right (nodup_unitListed read)

/-- A file with two contracts. -/
def twoContracts : Source :=
  "contract A \x7b function f() \x7b f(); \x7d \x7d contract B \x7b function g() \x7b \x7d \x7d".toList

theorem addUnit_again_checked : ∃ u g, twoContracts.parse.unit = .ok u ∧ Growth [u] g ∧
    g = (Graph.empty.addUnit u).checkRecursion ∧ g.cycle = some [0] ∧
    (g.addUnit u).edges = g.edges ∧ (g.addUnit u).cycle = some [0] ∧
    (g.functions.map fun l => l.function.id).Nodup := by
  have evaluated : twoContracts.parse.unit.toOption.any (fun u =>
      (Graph.empty.addUnit u).checkRecursion.cycle == some [0]) = true := by
    decide +kernel
  obtain ⟨u, read, value⟩ := exists_of_any evaluated
  have cycle : (Graph.empty.addUnit u).checkRecursion.cycle = some [0] := by simpa using value
  have grown : Growth [u] (Graph.empty.addUnit u).checkRecursion := .check (.addUnit u .empty)
  obtain ⟨edges, cycle', -, -, -, -, alone⟩ := addUnit_again read grown (List.mem_singleton_self u)
  refine ⟨u, _, read, grown, rfl, cycle, edges, cycle'.trans cycle, ?_⟩
  exact (alone fun v member => List.mem_singleton.1 member).2 (.inl rfl)

/-- The functions of a file that is added twice are listed twice, and the two contracts take
turns in the list. -/
theorem addUnit_twice : ∃ u, twoContracts.parse.unit = .ok u ∧
    Growth [u] (Graph.empty.addUnit u) ∧
    (Graph.empty.addUnit u).addUnit u ≠ Graph.empty.addUnit u ∧
    ((Graph.empty.addUnit u).addUnit u).functions.map (fun l => (l.contract, l.function.id)) =
      [("A", 1), ("B", 3), ("A", 1), ("B", 3)] := by
  have evaluated : twoContracts.parse.unit.toOption.any (fun u =>
      (Graph.empty.addUnit u).functions.length == 2 &&
      ((Graph.empty.addUnit u).addUnit u).functions.map (fun l => (l.contract, l.function.id)) ==
        [("A", 1), ("B", 3), ("A", 1), ("B", 3)]) = true := by
    decide +kernel
  obtain ⟨u, read, values⟩ := exists_of_any evaluated
  simp only [Bool.and_eq_true, beq_iff_eq] at values
  obtain ⟨two, functions⟩ := values
  refine ⟨u, read, .addUnit u .empty, fun same => ?_, functions⟩
  have four := congrArg List.length functions
  rw [same, List.length_map, two] at four
  cases four

end Graph
end Files
end SafeSubset.Calls
