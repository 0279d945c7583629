import SafeSubset.Proofs.Calls.Alike
import SafeSubset.Proofs.Checked.Tree
import SafeSubset.Review

/-! Calls in the tree that replaced text stands for. The library is called through a member
and a conversion names a type, so no call of a bare name is put in, and an operand that comes
to stand twice adds no edge when it is met again: the graph of a file stays as it is. -/
namespace SafeSubset.Checked

open Calls

variable (target : String → Option Vertex) (v : Vertex)

theorem callEdges_receiverTree (l t : Expr Ty) :
    callEdges target v (receiverTree l t).subexpressions = callEdges target v t.subexpressions := by
  have conversion : ∀ i : Info Ty, callEdges target v (Expr.elementary i .uint256).subexpressions = [] :=
    fun i => callEdges_of_parts target v rfl
  unfold receiverTree
  split
  · rw [callEdges_of_parts _ _ rfl]
    simp [Expr.children, conversion]
  · split
    · rw [callEdges_of_parts _ _ rfl]
      simp [Expr.children]
    · rfl

/-- A call of the library has the calls of its receiver and of its argument. -/
theorem callEdges_libraryCall (i : Info Ty) (receiver argument : Expr Ty) (function : String) :
    callEdges target v (libraryCall i receiver function argument).subexpressions =
      callEdges target v receiver.subexpressions ++ callEdges target v argument.subexpressions := by
  have method : callEdges target v
      (Expr.member ⟨i.span, .unknown⟩ receiver ⟨function, i.span⟩).subexpressions =
        callEdges target v receiver.subexpressions := by
    rw [callEdges_of_parts _ _ rfl]
    simp [Expr.children]
  rw [libraryCall, callEdges_of_parts _ _ rfl]
  simp [Expr.children, method]

theorem callEdges_binary (i : Info Ty) (op : BinaryOp) (l r : Expr Ty) :
    callEdges target v (Expr.binary i op l r).subexpressions =
      callEdges target v l.subexpressions ++ callEdges target v r.subexpressions := by
  rw [callEdges_of_parts _ _ rfl]
  simp [Expr.children]

theorem callEdges_assign (i : Info Ty) (op : AssignOp) (l r : Expr Ty) :
    callEdges target v (Expr.assign i op l r).subexpressions =
      callEdges target v l.subexpressions ++ callEdges target v r.subexpressions := by
  rw [callEdges_of_parts _ _ rfl]
  simp [Expr.children]

theorem calledName_tree {e : Expr Ty} (stays : operation? e = none) :
    calledName? (tree e) = calledName? e := by
  cases e with
  | binary i op l r => rw [tree_binary_of_none stays]; rfl
  | assign i op l r => rw [tree_assign_of_none stays]; rfl
  | index i base k => cases k <;> rfl
  | call i callee args names => exact name_tree callee
  | _ => rfl

/-- The tree of an expression has its calls. -/
theorem keeps_tree : Keeps tree := by
  intro target v e
  induction e using Expr.induction_children with
  | node e ih =>
      cases fires : operation? e with
      | none =>
          rw [callEdges_subexpressions, callEdges_subexpressions _ _ e, children_tree fires]
          apply SameEdges.append
          · apply SameEdges.flatMap
            rw [List.forall₂_map_left_iff, List.forall₂_same]
            exact ih
          · rw [callEdges_singleton, callEdges_singleton, calledName_tree fires]
            exact .refl _
      | some o =>
          cases e with
          | binary i op l r =>
              have left := ih l (by simp [Expr.children])
              have right := ih r (by simp [Expr.children])
              rw [tree_binary fires, callEdges_libraryCall, callEdges_receiverTree, callEdges_binary]
              exact left.append right
          | assign i op l r =>
              have left := ih l (by simp [Expr.children])
              have right := ih r (by simp [Expr.children])
              rw [tree_assign fires, callEdges_assign, callEdges_libraryCall, callEdges_assign,
                ← List.append_assoc]
              -- The left side is met once more.
              have twice := SameEdges.twice (callEdges target v (tree l).subexpressions)
              exact (twice.trans left).append right
          | _ => contradiction

/-- A node of a file with the tree of each expression in its place, where the file does not
define the library and the contract does not attach it. -/
def nodeTree (u : SourceUnit Ty) : Node Ty → Node Ty
  | .contract c =>
      .contract (if (∃ d ∈ u.contracts, isLibraryName d.name.text = true) ∨ Attaches c then c
        else contractTree c)
  | n => n

/-- A file with its checked operations replaced. -/
def unitTree (u : SourceUnit Ty) : SourceUnit Ty := { u with nodes := u.nodes.map (nodeTree u) }

theorem sameCalls_unitTree (u : SourceUnit Ty) :
    List.Forall₂ SameCalls (unitTree u).contracts u.contracts := by
  rw [SourceUnit.contracts_eq, SourceUnit.contracts_eq u, unitTree]
  generalize nodes : u.nodes = ns
  clear nodes
  induction ns with
  | nil => exact .nil
  | cons n ns ih =>
      cases n with
      | pragma s | inclusion s => exact ih
      | contract c =>
          refine .cons ?_ ih
          split
          · exact .refl c
          · exact keeps_tree.contract c

/-- Replacing the checked operations of a file leaves its graph as it is: whatever it is added
to, the same functions and the same edges are added in the same order, so the same cycle is
found. The library that is put in has functions and no edge. -/
theorem addUnit_unitTree (u : SourceUnit Ty) :
    (∀ g : Graph, g.addUnit (unitTree u) = g.addUnit u) ∧
      (∀ check, (unitTree u).callGraph check = u.callGraph check) ∧
      ∃ v, librarySource.parse.unit = .ok v ∧ v.functions.length = 3 ∧
        (Graph.empty.addUnit v).edges = [] := by
  have same : ∀ g : Graph, g.addUnit (unitTree u) = g.addUnit u :=
    addUnit_congr (sameCalls_unitTree u)
  have library : librarySource.parse.unit.toOption.any (fun v =>
      v.functions.length == 3 && (Graph.empty.addUnit v).edges.isEmpty) = true := by
    -- Lines are joined as lists of characters before anything is computed with them.
    unfold librarySource
    simp only [String.toList_append]
    decide +kernel
  obtain ⟨v, read, facts⟩ := exists_of_any library
  simp only [Bool.and_eq_true, beq_iff_eq, List.isEmpty_iff] at facts
  obtain ⟨three, none⟩ := facts
  refine ⟨same, ?_, v, read, three, none⟩
  intro check
  simp only [SourceUnit.callGraph, same]

end SafeSubset.Checked
