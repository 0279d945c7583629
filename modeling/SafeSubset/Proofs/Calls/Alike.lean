import SafeSubset.Proofs.Calls.Building
import SafeSubset.Proofs.Grammar.File

/-! What a graph does not depend on. Calls of the same names in the same order give the same
graph, and so do calls that have been added before: a file may be typed, or its expressions
replaced by others, without a change of its graph. -/
namespace SafeSubset.Calls

variable {α β γ : Type}

/-- Edges that add the same to every graph. -/
def SameEdges (es fs : List Edge) : Prop := ∀ g : Graph, g.insertAll es = g.insertAll fs

namespace SameEdges

variable {es es' fs fs' : List Edge}

theorem refl (es : List Edge) : SameEdges es es := fun _ => rfl

theorem trans (first : SameEdges es fs) (second : SameEdges fs es') : SameEdges es es' :=
  fun g => (first g).trans (second g)

theorem append (first : SameEdges es es') (second : SameEdges fs fs') :
    SameEdges (es ++ fs) (es' ++ fs') := by
  intro g
  rw [Graph.insertAll_append, Graph.insertAll_append, first, second]

theorem twice (es : List Edge) : SameEdges (es ++ es) es := by
  intro g
  rw [Graph.insertAll_append]
  exact Graph.insertAll_of_joins fun e member => g.insertAll_joins member

theorem flatMap {ε δ : Type} {xs : List ε} {ys : List δ} {edges : ε → List Edge}
    {edges' : δ → List Edge}
    (each : List.Forall₂ (fun x y => SameEdges (edges x) (edges' y)) xs ys) :
    SameEdges (xs.flatMap edges) (ys.flatMap edges') := by
  induction each with
  | nil => exact refl []
  | cons first rest ih => exact first.append ih

end SameEdges

section Expressions

variable (target : String → Option Vertex) (v : Vertex)

/-- The edges for the calls among some expressions of a function. -/
def callEdges (es : List (Expr α)) : List Edge := (sites target v es).map Site.edge

theorem callEdges_append (es fs : List (Expr α)) :
    callEdges target v (es ++ fs) = callEdges target v es ++ callEdges target v fs := by
  simp [callEdges, sites]

theorem callEdges_singleton (e : Expr α) : callEdges target v [e] =
    (((calledName? e).bind target).map (⟨v, ·⟩)).toList := by
  cases called : (calledName? e).bind target <;>
    simp only [callEdges, sites, called, List.filterMap_cons, List.filterMap_nil, Option.map_none,
      Option.map_some, List.map_nil, List.map_cons, Option.toList_none, Option.toList_some]

theorem callEdges_flatMap {ε : Type} (inner : ε → List (Expr α)) (xs : List ε) :
    callEdges target v (xs.flatMap inner) = xs.flatMap fun x => callEdges target v (inner x) := by
  induction xs with
  | nil => rfl
  | cons x xs ih => rw [List.flatMap_cons, callEdges_append, ih, List.flatMap_cons]

theorem callEdges_subexpressions (e : Expr α) : callEdges target v e.subexpressions =
    (e.children.flatMap fun c => callEdges target v c.subexpressions) ++ callEdges target v [e] := by
  rw [e.subexpressions_eq, callEdges_append, callEdges_flatMap]

/-- What is no call of a bare name has the calls of its parts. -/
theorem callEdges_of_parts {e : Expr α} (none : calledName? e = none) :
    callEdges target v e.subexpressions =
      e.children.flatMap fun c => callEdges target v c.subexpressions := by
  rw [callEdges_subexpressions, callEdges_singleton, none]
  simp

end Expressions

/-- The calls in the image of an expression give the edges of the calls in it. -/
def Keeps (f : Expr α → Expr β) : Prop := ∀ target v e,
  SameEdges (callEdges target v (f e).subexpressions) (callEdges target v e.subexpressions)

/-- The contracts list the same functions, and add the same edges. -/
structure SameCalls (c : Contract α) (d : Contract β) : Prop where
  listed : c.functions.map (fun f => (⟨c.id, c.name.text, .of f⟩ : Listed)) =
    d.functions.map fun f => ⟨d.id, d.name.text, .of f⟩
  edges : SameEdges ((contractSites c).map Site.edge) ((contractSites d).map Site.edge)

namespace SameCalls

variable {c : Contract α} {d : Contract β} {e : Contract γ}

theorem refl (c : Contract α) : SameCalls c c := ⟨rfl, .refl _⟩

theorem symm (same : SameCalls c d) : SameCalls d c :=
  ⟨same.listed.symm, fun g => (same.edges g).symm⟩

theorem trans (first : SameCalls c d) (second : SameCalls d e) : SameCalls c e :=
  ⟨first.listed.trans second.listed, fun g => (first.edges g).trans (second.edges g)⟩

end SameCalls

section MapRoots

variable {f : Expr α → Expr β}

theorem target_mapRoots (f : Expr α → Expr β) (c : Contract α) : target (c.mapRoots f) = target c := by
  funext n
  simp only [target, resolve, Contract.functions_mapRoots, List.find?_map, Option.map_map]
  rfl

theorem contractSites_eq (c : Contract α) : (contractSites c).map Site.edge =
    c.functions.flatMap fun d => d.roots.flatMap fun r => callEdges (target c) (.of d) r.subexpressions := by
  rw [contractSites, List.map_flatMap]
  congr 1
  funext d
  rw [d.expressions_eq, ← callEdges_flatMap]
  rfl

/-- Replacing roots by others with the same calls leaves the calls of a contract. -/
theorem Keeps.contract (keeps : Keeps f) (c : Contract α) : SameCalls (c.mapRoots f) c where
  listed := by
    rw [Contract.functions_mapRoots, List.map_map]
    rfl
  edges := by
    rw [contractSites_eq, contractSites_eq, Contract.functions_mapRoots, target_mapRoots]
    apply SameEdges.flatMap
    rw [List.forall₂_map_left_iff, List.forall₂_same]
    intro d _
    rw [d.roots_mapRoots f]
    apply SameEdges.flatMap
    rw [List.forall₂_map_left_iff, List.forall₂_same]
    exact fun r _ => keeps (target c) (.of d) r

end MapRoots

/-- Files whose contracts have the same calls one by one add the same to a graph. -/
theorem addUnit_congr {u : SourceUnit α} {w : SourceUnit β}
    (same : List.Forall₂ SameCalls u.contracts w.contracts) (g : Graph) : g.addUnit u = g.addUnit w := by
  have edges : SameEdges ((unitSites u).map Site.edge) ((unitSites w).map Site.edge) := by
    rw [unitSites, unitSites, List.map_flatMap, List.map_flatMap]
    exact SameEdges.flatMap (same.imp fun _ _ => SameCalls.edges)
  have listed : unitListed u = unitListed w := by
    unfold unitListed
    generalize u.contracts = cs, w.contracts = ds at same
    induction same with
    | nil => rfl
    | cons first rest ih => rw [List.flatMap_cons, List.flatMap_cons, first.listed, ih]
  rw [Graph.addUnit_eq, Graph.addUnit_eq, edges, listed]

section Typing

theorem calledName_forget (e : Expr α) : calledName? e.forget = calledName? e := by
  cases e with
  | call i callee args names =>
      show callee.forget.name? = callee.name?
      cases callee with
      | index i base k => cases k <;> rfl
      | _ => rfl
  | index i base k => cases k <;> rfl
  | _ => rfl

/-- Notes have no part in calls. -/
theorem keeps_forget : Keeps (Expr.forget : Expr α → Expr Unit) := by
  intro target v e
  induction e using Expr.induction_children with
  | node e ih =>
      rw [callEdges_subexpressions, callEdges_subexpressions _ _ e, e.children_forget]
      apply SameEdges.append
      · apply SameEdges.flatMap
        rw [List.forall₂_map_left_iff, List.forall₂_same]
        exact ih
      · rw [callEdges_singleton, callEdges_singleton, calledName_forget]
        exact .refl _

/-- Typing a file does not change its graph. -/
theorem addUnit_annotate (u : SourceUnit α) (g : Graph) : g.addUnit u.annotate = g.addUnit u := by
  refine (addUnit_congr ?_ g).symm
  rw [Typing.contracts_annotate, List.forall₂_map_right_iff, List.forall₂_same]
  intro c _
  have typed := Typing.mapRoots_forget_contractDef
    (Typing.surroundings (Typing.FileScope.of u) u.contracts c) c
  exact (keeps_forget.contract c).symm.trans (typed ▸ keeps_forget.contract _)

end Typing
end SafeSubset.Calls
