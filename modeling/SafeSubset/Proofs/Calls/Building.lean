import SafeSubset.Proofs.Calls.States

/-! The edges of a file. Adding a file adds an edge for each of its direct calls, call by
call, unless the edge is there: so each edge stands where the first of its calls does. -/
namespace SafeSubset.Calls

variable {α β : Type} {g : Graph}

/-- The name that is called, where an expression is a call of a bare name. -/
def calledName? : Expr α → Option String
  | .call _ callee _ _ => callee.name?
  | _ => none

/-- The function that a name stands for in a contract. -/
def target (c : Contract α) (name : String) : Option Vertex := (resolve c name).map Vertex.of

/-- A call, with the edge that is to stand for it. -/
structure Site (α : Type) where
  edge : Edge
  call : Expr α

/-- The calls among some expressions of a function. -/
def sites (target : String → Option Vertex) (v : Vertex) (es : List (Expr α)) : List (Site α) :=
  es.filterMap fun e => ((calledName? e).bind target).map fun w => ⟨⟨v, w⟩, e⟩

/-- The calls in the functions of a contract. -/
def contractSites (c : Contract α) : List (Site α) :=
  c.functions.flatMap fun f => sites (target c) (.of f) f.expressions

/-- The calls in the functions of a file. -/
def unitSites (u : SourceUnit α) : List (Site α) := u.contracts.flatMap contractSites

/-- The functions of a file with their contracts. -/
def unitListed (u : SourceUnit α) : List Listed :=
  u.contracts.flatMap fun c => c.functions.map fun f => ⟨c.id, c.name.text, .of f⟩

theorem directCallee_eq (c : Contract α) (e : Expr α) :
    directCallee c e = (calledName? e).bind (resolve c) := by
  cases e <;> rfl

namespace Graph

/-- Adds those of some edges that are not there. -/
def insertAll (g : Graph) (es : List Edge) : Graph :=
  es.foldl (fun g e => g.insert e.caller e.callee) g

theorem insertAll_append (g : Graph) (es fs : List Edge) :
    g.insertAll (es ++ fs) = (g.insertAll es).insertAll fs :=
  List.foldl_append

theorem insertAll_flatMap {ε : Type} (edges : ε → List Edge) (xs : List ε) (g : Graph) :
    g.insertAll (xs.flatMap edges) = xs.foldl (fun g x => g.insertAll (edges x)) g := by
  induction xs generalizing g with
  | nil => rfl
  | cons x xs ih => rw [List.flatMap_cons, insertAll_append, ih, List.foldl_cons]

section Joined

variable {es : List Edge}

theorem insertAll_extends (g : Graph) (es : List Edge) : g.edges <+: (g.insertAll es).edges := by
  induction es generalizing g with
  | nil => exact List.prefix_refl _
  | cons e es ih => exact (g.insert_extends e.caller e.callee).1.trans (ih _)

theorem insert_joins (g : Graph) (v w : Vertex) : ∃ e ∈ (g.insert v w).edges, e.Joins v w := by
  by_cases there : ∃ e ∈ g.edges, e.Joins v w
  · rw [insert_of_joins there]
    exact there
  · rw [insert_of_not_joins there]
    exact ⟨⟨v, w⟩, List.mem_append_right _ (List.mem_singleton_self _), rfl, rfl⟩

theorem insertAll_joins (g : Graph) {e : Edge} (member : e ∈ es) :
    ∃ f ∈ (g.insertAll es).edges, f.Joins e.caller e.callee := by
  induction es generalizing g with
  | nil => cases member
  | cons d es ih =>
      rcases List.mem_cons.1 member with rfl | member
      · obtain ⟨f, inside, joins⟩ := g.insert_joins e.caller e.callee
        exact ⟨f, (insertAll_extends _ es).subset inside, joins⟩
      · exact ih _ member

/-- Edges that are there are not added again. -/
theorem insertAll_of_joins (there : ∀ e ∈ es, ∃ f ∈ g.edges, f.Joins e.caller e.callee) :
    g.insertAll es = g := by
  induction es with
  | nil => rfl
  | cons e es ih =>
      have first : g.insert e.caller e.callee = g := insert_of_joins (there e List.mem_cons_self)
      show (g.insert e.caller e.callee).insertAll es = g
      rw [first]
      exact ih fun d member => there d (List.mem_cons_of_mem e member)

end Joined

theorem insertAll_functions (g : Graph) (functions : List Listed) (es : List Edge) :
    ({ g with functions } : Graph).insertAll es = { g.insertAll es with functions } := by
  induction es generalizing g with
  | nil => rfl
  | cons e es ih =>
      have first : ({ g with functions } : Graph).insert e.caller e.callee =
          { g.insert e.caller e.callee with functions } := by
        by_cases there : ∃ f ∈ g.edges, f.Joins e.caller e.callee
        · rw [insert_of_joins there, insert_of_joins (g := { g with functions }) there]
        · rw [insert_of_not_joins there, insert_of_not_joins (g := { g with functions }) there]
      show (Graph.insert { g with functions } e.caller e.callee).insertAll es = _
      rw [first, ih]
      rfl

theorem addFunction_eq (c : Contract α) (g : Graph) (f : FunctionDef α) :
    addFunction c g f = g.insertAll ((sites (target c) (.of f) f.expressions).map Site.edge) := by
  have edges : (sites (target c) (.of f) f.expressions).map Site.edge =
      (callees c f).map fun h => ⟨.of f, .of h⟩ := by
    simp only [sites, callees, List.map_filterMap, directCallee_eq]
    congr 1
    funext e
    cases calledName? e with
    | none => rfl
    | some n => simp [target, Function.comp_def]
  rw [edges, insertAll, List.foldl_map]
  rfl

theorem addContract_eq (g : Graph) (c : Contract α) :
    g.addContract c = { g.insertAll ((contractSites c).map Site.edge) with
      functions := g.functions ++ c.functions.map fun f => ⟨c.id, c.name.text, .of f⟩ } := by
  have own : addFunction c = fun g f =>
      g.insertAll ((sites (target c) (.of f) f.expressions).map Site.edge) :=
    funext fun g => funext fun f => addFunction_eq c g f
  rw [addContract, own, ← insertAll_flatMap, contractSites, List.map_flatMap, insertAll_functions]

/-- Adding a file adds its functions, and its edges one by one. -/
theorem addUnit_eq (g : Graph) (u : SourceUnit α) :
    g.addUnit u = { g.insertAll ((unitSites u).map Site.edge) with
      functions := g.functions ++ unitListed u } := by
  unfold addUnit unitSites unitListed
  generalize u.contracts = cs
  induction cs generalizing g with
  | nil => simp [insertAll]
  | cons c cs ih =>
      rw [List.foldl_cons, ih, addContract_eq, insertAll_functions]
      simp [insertAll_append]

/-- The edges are those of some calls that have been added, each once, in the order of the
first calls for which they stand. -/
structure Built (before : Site α → Site α → Prop) (added : List (Site α)) (g : Graph) : Prop where
  stands : ∀ e ∈ g.edges, ∃ s ∈ added, s.edge = e
  covers : ∀ s ∈ added, ∃ e ∈ g.edges, e.ends = s.edge.ends
  order : g.edges.Pairwise fun e f =>
    ∃ s ∈ added, s.edge = e ∧ ∀ t ∈ added, t.edge.ends = f.ends → before s t

namespace Built

variable {before : Site α → Site α → Prop} {added : List (Site α)}

section Step

variable {t : Site α} {e f : Edge}

/-- The call `s` is before all of some calls that have the ends of `f`. -/
def Ahead (before : Site α → Site α → Prop) (added : List (Site α)) (s : Site α) (f : Edge) : Prop :=
  ∀ r ∈ added, r.edge.ends = f.ends → before s r

/-- So it is when a call is made that is behind it. -/
theorem Ahead.more {s : Site α} (first : Ahead before added s f) (behind : before s t) :
    Ahead before (added ++ [t]) s f := by
  intro r member ends
  rcases List.mem_append.1 member with old | own
  · exact first r old ends
  · obtain rfl := List.mem_singleton.1 own
    exact behind

theorem stands_more (built : Built before added g) (t : Site α) (member : e ∈ g.edges) :
    ∃ s ∈ added ++ [t], s.edge = e := by
  obtain ⟨s, old, same⟩ := built.stands e member
  exact ⟨s, List.mem_append_left _ old, same⟩

theorem covers_more (built : Built before added g) (t : Site α) :
    ∀ s ∈ added ++ [t], ∃ e ∈ (g.insert t.edge.caller t.edge.callee).edges, e.ends = s.edge.ends := by
  intro s member
  rcases List.mem_append.1 member with old | own
  · obtain ⟨e, there, ends⟩ := built.covers s old
    exact ⟨e, (g.insert_extends _ _).1.subset there, ends⟩
  · obtain rfl := List.mem_singleton.1 own
    obtain ⟨e, there, joins⟩ := g.insert_joins s.edge.caller s.edge.callee
    exact ⟨e, there, Edge.joins_iff.1 joins⟩

/-- The last call changes nothing in the order of the edges before it. -/
theorem order_more (built : Built before added g) (last : ∀ s ∈ added, before s t) :
    g.edges.Pairwise fun e f => ∃ s ∈ added ++ [t], s.edge = e ∧ Ahead before (added ++ [t]) s f := by
  apply built.order.imp
  rintro e f ⟨s, old, same, earlier⟩
  exact ⟨s, List.mem_append_left _ old, same, Ahead.more earlier (last s old)⟩

theorem step (built : Built before added g) (last : ∀ s ∈ added, before s t) :
    Built before (added ++ [t]) (g.insert t.edge.caller t.edge.callee) := by
  have covers := built.covers_more t
  by_cases there : ∃ e ∈ g.edges, e.Joins t.edge.caller t.edge.callee
  · rw [insert_of_joins there] at covers ⊢
    exact ⟨fun _ => built.stands_more t, covers, built.order_more last⟩
  · rw [insert_of_not_joins there] at covers ⊢
    refine ⟨fun e member => ?_, covers, ?_⟩
    · rcases List.mem_append.1 member with old | own
      · exact built.stands_more t old
      · obtain rfl := List.mem_singleton.1 own
        exact ⟨t, by simp, rfl⟩
    · refine List.pairwise_append.2 ⟨built.order_more last, List.pairwise_singleton _ _, ?_⟩
      intro e member f own
      obtain rfl := List.mem_singleton.1 own
      obtain ⟨s, old, same⟩ := built.stands e member
      refine ⟨s, List.mem_append_left _ old, same, Ahead.more (fun r old' ends => ?_) (last s old)⟩
      -- The new edge is no edge of a call before it.
      obtain ⟨d, inside, ends'⟩ := built.covers r old'
      exact absurd ⟨d, inside, Edge.joins_iff.2 (ends'.trans ends)⟩ there

end Step

theorem run (built : Built before added g) {more : List (Site α)}
    (order : (added ++ more).Pairwise before) :
    Built before (added ++ more) (g.insertAll (more.map Site.edge)) := by
  induction more generalizing added g with
  | nil => simpa [insertAll] using built
  | cons t more ih =>
      rw [List.append_cons] at order ⊢
      have first := (List.pairwise_append.1 order).1
      have last : ∀ s ∈ added, before s t := fun s member =>
        (List.pairwise_append.1 first).2.2 s member t (List.mem_singleton_self t)
      exact ih (built.step last) order

/-- Where the calls of a file are in some order, its edges are in that of their first calls. -/
theorem unit {u : SourceUnit α} (order : (unitSites u).Pairwise before) :
    Built before (unitSites u) (Graph.empty.addUnit u) := by
  have start : Built before [] Graph.empty := by
    constructor
    · simp [Graph.empty]
    · simp
    · exact .nil
  have built : Built before ([] ++ unitSites u) _ := start.run order
  rw [addUnit_eq]
  exact ⟨built.stands, built.covers, built.order⟩

end Built
end Graph
end SafeSubset.Calls
