import SafeSubset.Calls.Recursion
import SafeSubset.Proofs.Calls.Search
import SafeSubset.Proofs.Syntax.Numbering

/-! The verdict on recursion. In every state that a graph over the functions of
a file can come to, the check finds a cycle if and only if some function reaches
itself by calls. -/
namespace SafeSubset.Calls

open Relation (TransGen ReflTransGen)

variable {α : Type} {u : SourceUnit α} {g : Graph}

namespace Graph

/-- The states that a graph over the functions of a file can come to. -/
inductive History (u : SourceUnit α) : Graph → Prop
  | empty : History u .empty
  | addUnit {g : Graph} : History u g → History u (g.addUnit u)
  | insert {g : Graph} {caller callee : FunctionDef α} : History u g →
      caller ∈ u.functions → callee ∈ u.functions →
      History u (g.insert (.of caller) (.of callee))
  | erase {g : Graph} {caller callee : FunctionDef α} : History u g →
      caller ∈ u.functions → callee ∈ u.functions →
      History u (g.erase (.of caller) (.of callee))
  | check {g : Graph} : History u g → History u g.checkRecursion

/-- One function calls another by an edge of the graph. -/
def DirectCall (g : Graph) (caller callee : Vertex) : Prop := ⟨caller, callee⟩ ∈ g.edges

/-- Every edge joins functions of the file. -/
def Within (u : SourceUnit α) (g : Graph) : Prop :=
  ∀ e ∈ g.edges, (∃ f ∈ u.functions, Vertex.of f = e.caller) ∧
    ∃ f ∈ u.functions, Vertex.of f = e.callee

theorem Within.insert (h : Within u g) {caller callee : FunctionDef α} (hf : caller ∈ u.functions)
    (hc : callee ∈ u.functions) : Within u (g.insert (.of caller) (.of callee)) := by
  unfold Graph.insert
  split
  · exact h
  · intro e he
    rcases List.mem_append.1 he with old | new
    · exact h e old
    · obtain rfl := List.mem_singleton.1 new
      exact ⟨⟨caller, hf, rfl⟩, callee, hc, rfl⟩

theorem Within.erase (h : Within u g) (caller callee : Vertex) : Within u (g.erase caller callee) := by
  unfold Graph.erase
  split
  · exact fun e he => h e (List.mem_of_mem_eraseIdx he)
  · exact h

theorem checkRecursion_edges (g : Graph) : g.checkRecursion.edges = g.edges := by
  unfold checkRecursion noteCycle
  split <;> try split
  all_goals rfl

end Graph

theorem resolve_mem {c : Contract α} {name : String} {f : FunctionDef α}
    (h : resolve c name = some f) : f ∈ c.functions :=
  List.mem_of_find?_eq_some h

theorem callees_mem {c : Contract α} {f callee : FunctionDef α} (h : callee ∈ callees c f) :
    callee ∈ c.functions := by
  obtain ⟨e, -, called⟩ := List.mem_filterMap.1 h
  unfold directCallee at called
  split at called
  · obtain ⟨name, -, resolved⟩ := Option.bind_eq_some_iff.1 called
    exact resolve_mem resolved
  · contradiction

namespace Graph

theorem Within.addFunction (h : Within u g) {c : Contract α} (hc : c ∈ u.contracts)
    {f : FunctionDef α} (hf : f ∈ c.functions) : Within u (addFunction c g f) := by
  have own : ∀ f ∈ c.functions, f ∈ u.functions := fun f hf => List.mem_flatMap.2 ⟨c, hc, hf⟩
  refine List.foldlRecOn _ _ h fun g within callee called => ?_
  exact within.insert (own f hf) (own callee (callees_mem called))

theorem Within.addContract (h : Within u g) {c : Contract α} (hc : c ∈ u.contracts) :
    Within u (addContract g c) :=
  List.foldlRecOn _ _ (show Within u { g with functions := _ } from h)
    fun _ within _ hf => within.addFunction hc hf

theorem Within.addUnit (h : Within u g) : Within u (g.addUnit u) :=
  List.foldlRecOn _ _ h fun _ within _ hc => within.addContract hc

theorem History.within (h : History u g) : Within u g := by
  induction h with
  | empty => simp [Within, Graph.empty]
  | addUnit _ ih => exact ih.addUnit
  | insert _ hf hc ih => exact ih.insert hf hc
  | erase _ _ _ ih => exact ih.erase _ _
  | @check g _ ih => exact fun e he => ih e (g.checkRecursion_edges ▸ he)

theorem mem_outgoing {v : Vertex} {n : Nat} :
    n ∈ g.outgoing v ↔ ∃ e, g.edges[n]? = some e ∧ e.caller.id = v.id := by
  simp only [outgoing, numbersWhere, List.mem_map, List.mem_filter, Prod.exists,
    List.mem_zipIdx_iff_getElem?, decide_eq_true_eq]
  constructor
  · rintro ⟨e, _, ⟨at_, caller⟩, rfl⟩
    exact ⟨e, at_, caller⟩
  · rintro ⟨e, at_, caller⟩
    exact ⟨e, n, ⟨at_, caller⟩, rfl⟩

/-- An edge leads on to the edges that leave its end. -/
theorem leadsTo_iff {a b : Nat} : LeadsTo g.successors a b ↔
    ∃ e f, g.edges[a]? = some e ∧ g.edges[b]? = some f ∧ f.caller.id = e.callee.id := by
  unfold LeadsTo successors
  cases at_ : g.edges[a]? with
  | none => simp
  | some e => simp [mem_outgoing]

theorem successors_inside (n : Nat) : ∀ s ∈ g.successors n, s ∈ List.range g.edges.length := by
  intro s hs
  obtain ⟨_, _, _, at_, _⟩ := leadsTo_iff.1 hs
  exact List.mem_range.2 (List.getElem?_eq_some_iff.1 at_).1

/-- Before the search no edge has been met. -/
theorem exploring_start (g : Graph) :
    Exploring g.successors (List.range g.edges.length) (List.range g.edges.length) none
      (fun _ => False) [] := by
  refine ⟨⟨by simp, by simp⟩, fun n hn => .inl hn, by simp, ?_, by simp [Trail.edges], trivial⟩
  simpa [Trail.edges] using List.nodup_range

/-- What the search over the whole graph finds. -/
theorem findCycle_spec (g : Graph) :
    match g.findCycle? with
    | some edges => IsCycle g.successors edges ∧ ∀ n ∈ edges, n < g.edges.length
    | none => ∀ n, ¬ TransGen (LeadsTo g.successors) n n := by
  have found := g.exploring_start.firstCycle (fun n _ => successors_inside n) fun _ => id
  unfold findCycle?
  split
  · next edges eq =>
    rw [eq] at found
    exact ⟨found.1, fun n hn => List.mem_range.1 (found.2 n hn)⟩
  · next eq =>
    rw [eq] at found
    intro n cycle
    obtain ⟨m, step, -⟩ := TransGen.head'_iff.1 cycle
    obtain ⟨e, _, at_, -⟩ := leadsTo_iff.1 step
    exact found n (List.mem_range.2 (List.getElem?_eq_some_iff.1 at_).1) cycle

/-- Functions of one file with one number are the same vertex. -/
theorem Within.same (distinct : (u.functions.map FunctionDef.id).Nodup) {v w : Vertex}
    (hv : ∃ f ∈ u.functions, Vertex.of f = v) (hw : ∃ f ∈ u.functions, Vertex.of f = w)
    (id : v.id = w.id) : v = w := by
  obtain ⟨f, hf, rfl⟩ := hv
  obtain ⟨f', hf', rfl⟩ := hw
  rw [List.inj_on_of_nodup_map distinct hf hf' id]

/-- A walk by calls goes along edges that lead on to one another. -/
theorem walk_of_calls {v w : Vertex} (walk : TransGen g.DirectCall v w) :
    ∃ a b e f, g.edges[a]? = some e ∧ e.caller = v ∧ g.edges[b]? = some f ∧ f.callee = w ∧
      ReflTransGen (LeadsTo g.successors) a b := by
  induction walk with
  | single call =>
      obtain ⟨n, at_⟩ := List.mem_iff_getElem?.1 call
      exact ⟨n, n, _, _, at_, rfl, at_, rfl, .refl⟩
  | tail _ call ih =>
      obtain ⟨a, b, e, f, first, caller, last, callee, path⟩ := ih
      obtain ⟨n, at_⟩ := List.mem_iff_getElem?.1 call
      exact ⟨a, n, e, _, first, caller, at_, rfl,
        path.tail (leadsTo_iff.2 ⟨f, _, last, at_, congrArg Vertex.id callee.symm⟩)⟩

theorem calls_of_walk (within : Within u g) (distinct : (u.functions.map FunctionDef.id).Nodup)
    {a b : Nat} {e f : Edge} (first : g.edges[a]? = some e) (last : g.edges[b]? = some f)
    (walk : TransGen (LeadsTo g.successors) a b) : TransGen g.DirectCall e.caller f.caller := by
  have step : ∀ {a b : Nat} {e f : Edge}, g.edges[a]? = some e → g.edges[b]? = some f →
      LeadsTo g.successors a b → g.DirectCall e.caller f.caller := by
    intro a b e f first last leads
    obtain ⟨e', f', first', last', id⟩ := leadsTo_iff.1 leads
    obtain rfl := Option.some.inj (first.symm.trans first')
    obtain rfl := Option.some.inj (last.symm.trans last')
    have he := List.mem_of_getElem? first
    have hf := List.mem_of_getElem? last
    have same := Within.same distinct (within f hf).1 (within e he).2 id
    simpa only [DirectCall, same] using he
  induction walk generalizing f with
  | single leads => exact .single (step first last leads)
  | tail _ leads ih =>
      obtain ⟨m, _, middle, _⟩ := leadsTo_iff.1 leads
      exact (ih middle).tail (step middle last leads)

/-- Some function reaches itself by calls if and only if some edge leads back to
itself. -/
theorem reaches_itself_iff (within : Within u g)
    (distinct : (u.functions.map FunctionDef.id).Nodup) :
    (∃ f ∈ u.functions, TransGen g.DirectCall (.of f) (.of f)) ↔
      ∃ n, TransGen (LeadsTo g.successors) n n := by
  constructor
  · rintro ⟨f, -, walk⟩
    obtain ⟨a, b, e, e', first, caller, last, callee, path⟩ := walk_of_calls walk
    have back : LeadsTo g.successors b a :=
      leadsTo_iff.2 ⟨e', e, last, first, congrArg Vertex.id (caller.trans callee.symm)⟩
    exact ⟨a, TransGen.tail' path back⟩
  · rintro ⟨n, cycle⟩
    obtain ⟨_, step, -⟩ := TransGen.head'_iff.1 cycle
    obtain ⟨e, _, at_, -⟩ := leadsTo_iff.1 step
    obtain ⟨f, hf, caller⟩ := (within e (List.mem_of_getElem? at_)).1
    exact ⟨f, hf, caller ▸ calls_of_walk within distinct at_ at_ cycle⟩

end Graph

theorem IsCycle.walk {successors : Nat → List Nat} {edges : List Nat}
    (h : IsCycle successors edges) : ∃ n, TransGen (LeadsTo successors) n n := by
  obtain ⟨first, last, head, getLast, back⟩ := h.closes
  have ne : edges ≠ [] := by rintro rfl; contradiction
  have path := List.relationReflTransGen_of_exists_isChain edges h.chain ne
  obtain rfl := (List.head_eq_iff_head?_eq_some ne).2 head
  obtain rfl := (List.getLast_eq_iff_getLast?_eq_some ne).2 getLast
  exact ⟨_, TransGen.tail' path back⟩

namespace Graph

/-- A cycle of edges is noted with one report. -/
theorem noteCycle_eq {edges : List Nat} (cycle : IsCycle g.successors edges)
    (inside : ∀ n ∈ edges, n < g.edges.length) :
    ∃ report : Diagnostic, report.code = some Diagnostic.recursionCode ∧ report.level = .error ∧
      g.noteCycle edges =
        { g with cycle := some edges, diagnostics := g.diagnostics ++ [report] } := by
  obtain ⟨first, -, head, -⟩ := cycle.closes
  obtain ⟨rest, rfl⟩ := List.head?_eq_some_iff.1 head
  have bound : first < g.edges.length := inside first List.mem_cons_self
  have edges : g.edgesAt (first :: rest) = g.edges[first] :: g.edgesAt rest := by
    simp only [edgesAt, List.filterMap_cons, List.getElem?_eq_getElem bound]
  exact ⟨recursionReport g.edges[first] (g.edgesAt rest), rfl, rfl, by simp only [noteCycle, edges]⟩

theorem isClean_iff : g.isClean = true ↔ ∀ d ∈ g.diagnostics, d.level ≠ .error := by
  have levels : ∀ l : Level, l = .warning ↔ l ≠ .error := fun l => by cases l <;> decide
  simp [isClean, Diagnostic.onlyWarnings, levels]

/-- The check adds one report of recursion and a cycle, and rejects the graph,
exactly where some function reaches itself by one or more edges. Elsewhere it
changes nothing and rejects only what had been rejected before. -/
theorem checkRecursion_iff_recursive {source : Source} {u : SourceUnit Unit}
    (parsed : (Source.parse source).unit = .ok u) (history : History u g) :
    ((∃ f ∈ u.functions, TransGen g.DirectCall (.of f) (.of f)) ↔
      ∃ cycle report, IsCycle g.successors cycle ∧ report.code = some Diagnostic.recursionCode ∧
        g.checkRecursion =
          { g with cycle := some cycle, diagnostics := g.diagnostics ++ [report] } ∧
        g.checkRecursion.isClean = false) ∧
    ((¬ ∃ f ∈ u.functions, TransGen g.DirectCall (.of f) (.of f)) →
      g.checkRecursion = g ∧
        (g.checkRecursion.isClean = true ↔ ∀ d ∈ g.diagnostics, d.level ≠ .error)) := by
  have recursive := reaches_itself_iff history.within (Source.parse_function_numbers parsed)
  have found := g.findCycle_spec
  rw [recursive]
  cases result : g.findCycle? with
  | none =>
      rw [result] at found
      have acyclic : ¬ ∃ n, TransGen (LeadsTo g.successors) n n := fun ⟨n, cycle⟩ => found n cycle
      have same : g.checkRecursion = g := by simp only [checkRecursion, result]
      refine ⟨⟨fun h => absurd h acyclic, ?_⟩, fun _ => ⟨same, by rw [same, isClean_iff]⟩⟩
      rintro ⟨cycle, -, isCycle, -⟩
      exact isCycle.walk
  | some edges =>
      rw [result] at found
      obtain ⟨cycle, inside⟩ := found
      obtain ⟨report, code, level, noted⟩ := noteCycle_eq cycle inside
      have checked : g.checkRecursion = g.noteCycle edges := by simp only [checkRecursion, result]
      refine ⟨⟨fun _ => ⟨edges, report, cycle, code, checked.trans noted, ?_⟩, fun _ => cycle.walk⟩,
        fun h => absurd cycle.walk h⟩
      rw [checked, noted]
      simp [isClean, Diagnostic.onlyWarnings, level]

/-- A file with one function, which calls itself. -/
def selfCalling : Source := "contract A \x7b function f() \x7b f(); \x7d \x7d".toList

theorem checkRecursion_selfCalling : ∃ u, (Source.parse selfCalling).unit = .ok u ∧
    History u (Graph.empty.addUnit u) ∧
    (∃ f ∈ u.functions, TransGen (Graph.empty.addUnit u).DirectCall (.of f) (.of f)) ∧
    (Graph.empty.addUnit u).checkRecursion.isClean = false := by
  have evaluated : (Source.parse selfCalling).unit.toOption.map
      (fun u => (u.functions.map Vertex.of, (Graph.empty.addUnit u).edges)) =
        some ([⟨1, "f", ⟨13, 34⟩⟩], [⟨⟨1, "f", ⟨13, 34⟩⟩, ⟨1, "f", ⟨13, 34⟩⟩⟩]) := by
    decide +kernel
  cases parsed : (Source.parse selfCalling).unit with
  | error f => simp [parsed, Except.toOption] at evaluated
  | ok u =>
      simp only [parsed, Except.toOption, Option.map_some, Option.some.injEq, Prod.mk.injEq]
        at evaluated
      obtain ⟨functions, edges⟩ := evaluated
      obtain ⟨f, hf, vertex⟩ := List.mem_map.1 (functions ▸ List.mem_singleton_self _)
      have recursive : ∃ f ∈ u.functions,
          TransGen (Graph.empty.addUnit u).DirectCall (.of f) (.of f) :=
        ⟨f, hf, .single (by simp [DirectCall, edges, vertex])⟩
      have history : History u (Graph.empty.addUnit u) := .addUnit .empty
      obtain ⟨_, _, _, _, _, rejected⟩ :=
        (checkRecursion_iff_recursive parsed history).1.1 recursive
      exact ⟨u, rfl, history, recursive, rejected⟩

end Graph
end SafeSubset.Calls
