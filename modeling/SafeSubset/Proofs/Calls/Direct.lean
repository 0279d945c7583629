import SafeSubset.Proofs.Calls.Building
import SafeSubset.Proofs.Grammar.PostOrder

/-! The direct calls of a file by its tree alone, and the edges of its graph. A function
calls another where a call of the other's name stands somewhere in it, and the other is
the first of that name in its own contract. -/
namespace SafeSubset

open Relation (TransGen)

variable {α : Type}

/-- The function has a name, and it is this one. -/
def FunctionDef.Named (f : FunctionDef α) (n : String) : Prop := ∃ i, f.name = .named i ∧ i.text = n

/-- The function is the first of that name that the contract itself defines. -/
def Contract.FirstNamed (c : Contract α) (n : String) (h : FunctionDef α) : Prop :=
  h.Named n ∧ ∃ before behind, c.functions = before ++ h :: behind ∧ ∀ f ∈ before, ¬ f.Named n

/-- A call, by a bare name, of the function that the name stands for in a contract. -/
inductive Contract.IsCallOf (c : Contract α) (h : FunctionDef α) : Expr α → Prop where
  | call {i j : Info α} {n : String} {args : List (Expr α)} {names : List Ident} :
      c.FirstNamed n h → IsCallOf c h (.call i (.identifier j n) args names)

namespace Contract.IsCallOf

variable {c : Contract α} {h : FunctionDef α} {e : Expr α}

theorem mem (isCall : c.IsCallOf h e) : h ∈ c.functions := by
  obtain ⟨-, before, behind, split, -⟩ := isCall
  simp [split]

theorem named (isCall : c.IsCallOf h e) : ∃ n, h.Named n := by
  obtain ⟨name, -⟩ := isCall
  exact ⟨_, name⟩

end Contract.IsCallOf

namespace SourceUnit

variable {u : SourceUnit Unit} {f g h k : FunctionDef Unit} {x : Expr Unit}

/-- The expression is a call of `h` that stands somewhere in `f`. -/
def CallSite (u : SourceUnit Unit) (f h : FunctionDef Unit) (x : Expr Unit) : Prop :=
  ∃ c ∈ u.contracts, f ∈ c.functions ∧ (Construct.member (.function f)).Has (.expr x) ∧ c.IsCallOf h x

/-- One function calls another directly. -/
def Calls (u : SourceUnit Unit) (f h : FunctionDef Unit) : Prop := ∃ x, u.CallSite f h x

theorem CallSite.mem (site : u.CallSite f h x) : f ∈ u.functions ∧ h ∈ u.functions := by
  obtain ⟨c, inU, inC, -, isCall⟩ := site
  exact ⟨List.mem_flatMap.2 ⟨c, inU, inC⟩, List.mem_flatMap.2 ⟨c, inU, isCall.mem⟩⟩

/-- In `f` some call of `h` ends before every call of `k`. -/
def CallsFirst (u : SourceUnit Unit) (f h k : FunctionDef Unit) : Prop :=
  ∃ x, u.CallSite f h x ∧ ∀ y, u.CallSite f k y → x.EndsBefore y

end SourceUnit

/-- No name in a file that has been read is empty. -/
theorem Source.identifier_ne_empty {source : Source} {u : SourceUnit Unit}
    (read : source.parse.unit = .ok u) {i : Info Unit} {n : String}
    (member : .identifier i n ∈ u.expressions) : n ≠ "" := by
  obtain ⟨ts, -, roots⟩ := source.roots_of_parse read
  rw [u.expressions_eq] at member
  obtain ⟨r, root, deep⟩ := List.mem_flatMap.1 member
  obtain ⟨_, us, _, -, written⟩ := roots.mem root
  obtain ⟨_, vs, _, -, located⟩ := written.mem deep
  obtain ⟨_, _, groups, -⟩ := located
  obtain ⟨t, -, -, text, -⟩ := groups
  rintro rfl
  exact t.chars_ne (String.ofList_eq_empty_iff.1 text)

namespace Calls

variable {c : Contract α} {f h : FunctionDef α} {n : String}

theorem callName_eq_iff (some : n ≠ "") : callName f = n ↔ f.Named n := by
  unfold callName FunctionDef.Named
  cases f.name with
  | named i => simp [FunctionName.ident?]
  | constructor | fallback => simpa [FunctionName.ident?] using some.symm

theorem resolve_eq_some (some : n ≠ "") : resolve c n = .some h ↔ c.FirstNamed n h := by
  simp [resolve, List.find?_eq_some_iff_append, callName_eq_iff some, Contract.FirstNamed]

theorem directCallee_eq_some {e : Expr α} (named : ∀ i n, .identifier i n ∈ e.subexpressions → n ≠ "") :
    directCallee c e = some h ↔ c.IsCallOf h e := by
  have part : ∀ {i j : Info α} {n : String} {args : List (Expr α)} {names : List Ident},
      .identifier j n ∈ (Expr.call i (.identifier j n) args names).subexpressions := by
    intro i j n args names
    exact Expr.mem_subexpressions.2 (.inr ⟨_, List.mem_cons_self, Expr.self_mem_subexpressions _⟩)
  rw [directCallee_eq]
  constructor
  · intro called
    obtain ⟨n, name, resolved⟩ := Option.bind_eq_some_iff.1 called
    cases e with
    | call i callee args names =>
        cases callee with
        | identifier j m =>
            cases name
            exact .call ((resolve_eq_some (named j n part)).1 resolved)
        | _ => cases name
    | _ => cases name
  · rintro ⟨first⟩
    exact (resolve_eq_some (named _ _ part)).2 first

theorem mem_sites {v : Vertex} {es : List (Expr α)} {s : Site α} : s ∈ sites (target c) v es ↔
    ∃ h, s.edge = ⟨v, .of h⟩ ∧ s.call ∈ es ∧ directCallee c s.call = some h := by
  simp only [sites, List.mem_filterMap, Option.map_eq_some_iff]
  constructor
  · rintro ⟨e, member, w, called, rfl⟩
    obtain ⟨n, name, resolved⟩ := Option.bind_eq_some_iff.1 called
    obtain ⟨h, first, rfl⟩ := Option.map_eq_some_iff.1 resolved
    refine ⟨h, rfl, member, ?_⟩
    rw [directCallee_eq]
    exact Option.bind_eq_some_iff.2 ⟨n, name, first⟩
  · rintro ⟨h, same, member, called⟩
    rw [directCallee_eq] at called
    obtain ⟨n, name, resolved⟩ := Option.bind_eq_some_iff.1 called
    refine ⟨s.call, member, .of h, ?_, same ▸ rfl⟩
    exact Option.bind_eq_some_iff.2 ⟨n, name, Option.map_eq_some_iff.2 ⟨h, resolved, rfl⟩⟩

section Files

variable {source : Source} {u : SourceUnit Unit}

/-- The calls that are met are those in the tree. -/
theorem mem_unitSites (read : source.parse.unit = .ok u) {s : Site Unit} :
    s ∈ unitSites u ↔ ∃ f h, s.edge = ⟨.of f, .of h⟩ ∧ u.CallSite f h s.call := by
  have callee : ∀ c ∈ u.contracts, ∀ f ∈ c.functions, ∀ e ∈ f.expressions, ∀ h,
      directCallee c e = some h ↔ c.IsCallOf h e := by
    intro c inU f inC e member h
    have inFile := (SourceUnit.function_expressions_sublist
      (List.mem_flatMap.2 ⟨c, inU, inC⟩)).subset member
    apply directCallee_eq_some
    intro i n part
    apply source.identifier_ne_empty read
    rw [u.expressions_eq] at inFile ⊢
    obtain ⟨r, root, deep⟩ := List.mem_flatMap.1 inFile
    exact List.mem_flatMap.2 ⟨r, root, Expr.mem_subexpressions_trans part deep⟩
  simp only [unitSites, contractSites, List.mem_flatMap, mem_sites]
  constructor
  · rintro ⟨c, inU, f, inC, h, same, member, called⟩
    refine ⟨f, h, same, c, inU, inC, FunctionDef.has_expr_iff.2 member, ?_⟩
    exact (callee c inU f inC _ member h).1 called
  · rintro ⟨f, h, same, c, inU, inC, stands, isCall⟩
    have member := FunctionDef.has_expr_iff.1 stands
    exact ⟨c, inU, f, inC, h, same, member, (callee c inU f inC _ member h).2 isCall⟩

/-- The order of calls: by the functions in which they stand, and in a function by their ends. -/
def Precedes (s t : Site α) : Prop :=
  s.edge.caller.id < t.edge.caller.id ∨ s.edge.caller = t.edge.caller ∧ s.call.EndsBefore t.call

/-- The numbers of a file's functions ascend. -/
theorem ascending_of_parse (read : source.parse.unit = .ok u) :
    u.functions.Pairwise fun f g => f.id < g.id := by
  obtain ⟨count, numbers⟩ := source.parse_numbers read
  have all : u.numbers.Pairwise (· < ·) := numbers ▸ List.pairwise_lt_range
  exact List.pairwise_map.1 (all.sublist u.functions_sublist)

theorem precedes_of_parse (read : source.parse.unit = .ok u) : (unitSites u).Pairwise Precedes := by
  have inside : ∀ {c : Contract Unit} {f : FunctionDef Unit} {s : Site Unit},
      s ∈ sites (target c) (.of f) f.expressions → s.edge.caller = .of f := by
    intro c f s member
    obtain ⟨h, same, -⟩ := mem_sites.1 member
    rw [same]
  have ascending := ascending_of_parse read
  rw [SourceUnit.functions, List.pairwise_flatMap] at ascending
  obtain ⟨functions, contracts⟩ := ascending
  rw [unitSites, List.pairwise_flatMap]
  constructor
  · intro c inU
    rw [contractSites, List.pairwise_flatMap]
    constructor
    · intro f inC
      have order := (source.endsBefore_of_parse read).sublist
        (SourceUnit.function_expressions_sublist (List.mem_flatMap.2 ⟨c, inU, inC⟩))
      rw [sites, List.pairwise_filterMap]
      apply order.imp
      intro d e before s first t second
      obtain ⟨w, -, rfl⟩ := Option.map_eq_some_iff.1 first
      obtain ⟨w', -, rfl⟩ := Option.map_eq_some_iff.1 second
      exact .inr ⟨rfl, before⟩
    · apply (functions c inU).imp
      intro f g less s first t second
      left
      rw [inside first, inside second]
      exact less
  · apply contracts.imp
    intro c d less s first t second
    obtain ⟨f, inC, first⟩ := List.mem_flatMap.1 first
    obtain ⟨g, inD, second⟩ := List.mem_flatMap.1 second
    left
    rw [inside first, inside second]
    exact less f inC g inD

theorem built_of_parse (read : source.parse.unit = .ok u) :
    Graph.Built Precedes (unitSites u) (Graph.empty.addUnit u) :=
  .unit (precedes_of_parse read)

/-- Functions of a file that has been read are one where they are one vertex. -/
theorem eq_of_vertex (read : source.parse.unit = .ok u) {f g : FunctionDef Unit}
    (first : f ∈ u.functions) (second : g ∈ u.functions) (same : f.id = g.id) : f = g :=
  List.inj_on_of_nodup_map (source.parse_function_numbers read) first second same

/-- The numbers of a file that has been read count its contracts and functions. -/
theorem numbers_of_parse (read : source.parse.unit = .ok u) :
    u.numbers = List.range (u.contracts.length + u.functions.length) := by
  obtain ⟨count, numbers⟩ := source.parse_numbers read
  have sizes : u.numbers.length = u.contracts.length + u.functions.length := by
    simp only [SourceUnit.numbers, SourceUnit.functions, List.length_flatMap, Contract.numbers,
      List.length_cons, List.length_map]
    induction u.contracts with
    | nil => rfl
    | cons c cs ih =>
        simp only [List.map_cons, List.sum_cons, List.length_cons, ih]
        omega
  rw [numbers] at sizes ⊢
  rw [← sizes, List.length_range]

namespace Graph

theorem directCall_iff (read : source.parse.unit = .ok u) {f h : FunctionDef Unit}
    (first : f ∈ u.functions) (second : h ∈ u.functions) :
    (Graph.empty.addUnit u).DirectCall (.of f) (.of h) ↔ u.Calls f h := by
  have built := built_of_parse read
  constructor
  · intro call
    obtain ⟨s, added, same⟩ := built.stands _ call
    obtain ⟨f', h', edge, site⟩ := (mem_unitSites read).1 added
    have ends : (⟨.of f', .of h'⟩ : Edge) = ⟨.of f, .of h⟩ := edge.symm.trans same
    have inFile := site.mem
    obtain rfl := eq_of_vertex read inFile.1 first (congrArg (fun e => e.caller.id) ends)
    obtain rfl := eq_of_vertex read inFile.2 second (congrArg (fun e => e.callee.id) ends)
    exact ⟨s.call, site⟩
  · rintro ⟨x, site⟩
    have added : (⟨⟨.of f, .of h⟩, x⟩ : Site Unit) ∈ unitSites u :=
      (mem_unitSites read).2 ⟨f, h, rfl, site⟩
    obtain ⟨e, member, ends⟩ := built.covers _ added
    obtain ⟨s, added', rfl⟩ := built.stands e member
    obtain ⟨f', h', edge, site'⟩ := (mem_unitSites read).1 added'
    rw [edge] at ends member
    obtain rfl := eq_of_vertex read site'.mem.1 first (congrArg Prod.fst ends)
    obtain rfl := eq_of_vertex read site'.mem.2 second (congrArg Prod.snd ends)
    exact member

/-- Walks along edges are chains of direct calls. -/
theorem calls_of_transGen (read : source.parse.unit = .ok u) {f : FunctionDef Unit} {v w : Vertex}
    (first : f ∈ u.functions) (same : v = .of f) (walk : TransGen (Graph.empty.addUnit u).DirectCall v w) :
    ∃ h ∈ u.functions, w = .of h ∧ TransGen u.Calls f h := by
  have target : ∀ {v w}, (Graph.empty.addUnit u).DirectCall v w → ∃ h ∈ u.functions, w = .of h := by
    intro v w call
    obtain ⟨-, h, member, vertex⟩ := (History.addUnit .empty : History u _).within _ call
    exact ⟨h, member, vertex.symm⟩
  induction walk with
  | single call =>
      obtain ⟨h, second, rfl⟩ := target call
      subst same
      exact ⟨h, second, rfl, .single ((directCall_iff read first second).1 call)⟩
  | tail _ call ih =>
      obtain ⟨h, second, rfl, chain⟩ := ih
      obtain ⟨k, third, rfl⟩ := target call
      exact ⟨k, third, rfl, chain.tail ((directCall_iff read second third).1 call)⟩

theorem transGen_of_calls (read : source.parse.unit = .ok u) {f h : FunctionDef Unit}
    (chain : TransGen u.Calls f h) : TransGen (Graph.empty.addUnit u).DirectCall (.of f) (.of h) := by
  refine chain.lift Vertex.of ?_
  rintro f h ⟨x, site⟩
  exact (directCall_iff read site.mem.1 site.mem.2).2 ⟨x, site⟩

/-- Some edge of the graph leads back to itself if and only if some function of the file reaches
itself by direct calls. -/
theorem recursive_iff_calls (read : source.parse.unit = .ok u) :
    (Graph.empty.addUnit u).Recursive ↔ ∃ f, TransGen u.Calls f f := by
  have history : History u (Graph.empty.addUnit u) := .addUnit .empty
  have walks := reaches_itself_iff history.within (Source.parse_function_numbers read)
  rw [Recursive, follows_eq, ← walks]
  constructor
  · rintro ⟨f, member, walk⟩
    obtain ⟨h, second, same, chain⟩ := calls_of_transGen read member rfl walk
    obtain rfl := eq_of_vertex read member second (congrArg Vertex.id same)
    exact ⟨f, chain⟩
  · rintro ⟨f, chain⟩
    obtain ⟨_, ⟨x, site⟩, -⟩ := TransGen.head'_iff.1 chain
    exact ⟨f, site.mem.1, transGen_of_calls read chain⟩

/-- The edges are in the order of the functions that they leave, and those that leave one
function in the order of the first calls. -/
theorem edges_order (read : source.parse.unit = .ok u) :
    (Graph.empty.addUnit u).edges.Pairwise fun e e' => e.caller.id < e'.caller.id ∨
      ∃ f ∈ u.functions, ∃ h k, e = ⟨.of f, .of h⟩ ∧ e' = ⟨.of f, .of k⟩ ∧ u.CallsFirst f h k := by
  have built := built_of_parse read
  apply built.order.imp_of_mem
  rintro e e' - member ⟨s, added, same, earlier⟩
  obtain ⟨t, added', same'⟩ := built.stands e' member
  obtain ⟨f, h, edge, site⟩ := (mem_unitSites read).1 added
  obtain ⟨f', k, edge', site'⟩ := (mem_unitSites read).1 added'
  rw [← same, ← same', edge, edge']
  rcases earlier t added' (same' ▸ rfl) with less | ⟨callers, -⟩
  · left
    rwa [edge, edge'] at less
  · right
    rw [edge, edge'] at callers
    obtain rfl := eq_of_vertex read site.mem.1 site'.mem.1 (congrArg Vertex.id callers)
    refine ⟨f, site.mem.1, h, k, rfl, rfl, s.call, site, ?_⟩
    intro y later
    have added'' : (⟨⟨.of f, .of k⟩, y⟩ : Site Unit) ∈ unitSites u :=
      (mem_unitSites read).2 ⟨f, k, rfl, later⟩
    have ends : Edge.ends ⟨.of f, .of k⟩ = e'.ends := by rw [← same', edge']
    rcases earlier _ added'' ends with less | ⟨-, before⟩
    · rw [edge] at less
      exact absurd less (Nat.lt_irrefl _)
    · exact before

/-- The graph of a file that has been read. Contracts and functions are numbered from zero
in source order, and the functions are listed in that order. One function has an edge to
another if and only if it calls it directly: the other is then the first of the name that
the call gives among the functions of the same contract, so it has a name. No two edges join
the same functions. Edges are in the order of the functions that they leave, and those of
one function in the order of the first calls. Nothing is reported. -/
theorem direct_calls_of_parse (read : source.parse.unit = .ok u) :
    u.numbers = List.range (u.contracts.length + u.functions.length) ∧
    (Graph.empty.addUnit u).functions = u.contracts.flatMap (fun c =>
      c.functions.map fun f => ⟨c.id, c.name.text, .of f⟩) ∧
    (∀ f ∈ u.functions, ∀ h ∈ u.functions,
      (Graph.empty.addUnit u).DirectCall (.of f) (.of h) ↔ u.Calls f h) ∧
    (∀ e ∈ (Graph.empty.addUnit u).edges, ∃ c ∈ u.contracts, ∃ f ∈ c.functions,
      ∃ h ∈ c.functions, e = ⟨.of f, .of h⟩ ∧ (∃ n, h.Named n) ∧ u.Calls f h) ∧
    ((Graph.empty.addUnit u).edges.map Edge.ends).Nodup ∧
    (Graph.empty.addUnit u).edges.Pairwise (fun e e' => e.caller.id < e'.caller.id ∨
      ∃ f ∈ u.functions, ∃ h k, e = ⟨.of f, .of h⟩ ∧ e' = ⟨.of f, .of k⟩ ∧ u.CallsFirst f h k) ∧
    (Graph.empty.addUnit u).isClean = true := by
  have history : History u (Graph.empty.addUnit u) := .addUnit .empty
  refine ⟨numbers_of_parse read, ?_, fun f first h second => directCall_iff read first second, ?_,
    history.sound.distinct, edges_order read, ?_⟩
  · rw [addUnit_eq]
    exact List.nil_append _
  · intro e member
    obtain ⟨s, added, rfl⟩ := (built_of_parse read).stands e member
    obtain ⟨f, h, edge, site⟩ := (mem_unitSites read).1 added
    obtain ⟨c, inU, inC, -, isCall⟩ := id site
    exact ⟨c, inU, f, inC, h, isCall.mem, edge, isCall.named, s.call, site⟩
  · rw [isClean_iff, (addUnit_extends u Graph.empty).2.2]
    intro d member
    cases member

/-- A file with two functions of one name, one of which calls itself, with a call in the
head of a constructor, and with a call of a name that only another contract defines. -/
def sharedNames : Source :=
  ("contract C \x7b constructor() only(a()) \x7b b(); \x7d function a() \x7b b(); a(); \x7d " ++
    "function a(uint x) \x7b \x7d function b() \x7b \x7d \x7d " ++
    "contract D \x7b function b() \x7b a(); \x7d \x7d").toList

theorem direct_calls_of_parse_sharedNames : ∃ u, sharedNames.parse.unit = .ok u ∧
    (Graph.empty.addUnit u).edges.map Edge.ends = [(1, 2), (1, 4), (2, 4), (2, 2)] ∧
    u.numbers = List.range 7 ∧ ∃ f ∈ u.functions, f.id = 2 ∧ u.Calls f f := by
  have evaluated : sharedNames.parse.unit.toOption.any (fun u =>
      (Graph.empty.addUnit u).edges.map Edge.ends == [(1, 2), (1, 4), (2, 4), (2, 2)] &&
        u.contracts.length + u.functions.length == 7) = true := by
    decide +kernel
  obtain ⟨u, read, values⟩ := exists_of_any evaluated
  simp only [Bool.and_eq_true, beq_iff_eq] at values
  obtain ⟨edges, seven⟩ := values
  obtain ⟨numbers, -, calls, joins, -⟩ := direct_calls_of_parse read
  have loop : (2, 2) ∈ (Graph.empty.addUnit u).edges.map Edge.ends := by simp [edges]
  obtain ⟨e, member, ends⟩ := List.mem_map.1 loop
  obtain ⟨c, inU, f, inC, h, inC', rfl, -, called⟩ := joins e member
  have first : f ∈ u.functions := List.mem_flatMap.2 ⟨c, inU, inC⟩
  have second : h ∈ u.functions := List.mem_flatMap.2 ⟨c, inU, inC'⟩
  obtain ⟨two, two'⟩ := Prod.mk.inj ends
  obtain rfl := eq_of_vertex read first second (two.trans two'.symm)
  exact ⟨u, read, edges, seven ▸ numbers, f, first, two, called⟩

end Graph
end Files
end Calls
end SafeSubset
