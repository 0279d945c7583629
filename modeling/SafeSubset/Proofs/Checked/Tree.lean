import SafeSubset.Proofs.Checked.Rule
import SafeSubset.Proofs.Syntax.Map

/-! The tree that replaced text stands for. By the rule, a checked operation becomes
a call of the library on its left operand, and a checked assignment assigns the result
of such a call; all other nodes stay as they are. -/
namespace SafeSubset.Checked

/-- A call of a function of the library. The member that is called has no type. -/
def libraryCall (info : Info Ty) (receiver : Expr Ty) (function : String) (argument : Expr Ty) :
    Expr Ty :=
  .call info (.member ⟨info.span, .unknown⟩ receiver ⟨function, info.span⟩) [argument] []

/-- The receiver of a call for the left operand `l`, of which `tree` is what has
become: converted, in parentheses, or as it is. -/
def receiverTree (l tree : Expr Ty) : Expr Ty :=
  if l.type ≠ .uint256 then
    .call ⟨l.span, .uint256⟩ (.elementary ⟨l.span, .uint256⟩ .uint256) [tree] []
  else if Loose l ∧ ¬ Fires l then .tuple ⟨l.span, l.type⟩ [tree]
  else tree

mutual
def tree : Expr Ty → Expr Ty
  | .binary i op l r =>
      if Fires (.binary i op l r) then
        libraryCall i (receiverTree l (tree l)) (binaryFunction op) (tree r)
      else .binary i op (tree l) (tree r)
  | .assign i op l r =>
      if Fires (.assign i op l r) then
        .assign i .assign (tree l)
          (libraryCall ⟨i.span, .uint256⟩ (tree l) (assignFunction op) (tree r))
      else .assign i op (tree l) (tree r)
  | .unary i op fixity e => .unary i op fixity (tree e)
  | .call i callee args names => .call i (tree callee) (trees args) names
  | .member i base m => .member i (tree base) m
  | .index i base none => .index i (tree base) none
  | .index i base (some k) => .index i (tree base) (some (tree k))
  | .conditional i c t f => .conditional i (tree c) (tree t) (tree f)
  | .tuple i es => .tuple i (trees es)
  | .identifier i n => .identifier i n
  | .number i t => .number i t
  | .string i t => .string i t
  | .bool i b => .bool i b
  | .elementary i t => .elementary i t
  | .new i t => .new i t

def trees : List (Expr Ty) → List (Expr Ty)
  | [] => []
  | e :: es => tree e :: trees es
end

/-- A contract with the tree of each expression in its place. -/
def contractTree (c : Contract Ty) : Contract Ty := c.mapRoots tree

theorem trees_eq (es : List (Expr Ty)) : trees es = es.map tree := by
  induction es with
  | nil => rfl
  | cons e es ih => simp [trees, ih]

section Nodes

variable {i : Info Ty} {l r : Expr Ty} {o : Operation}

theorem tree_binary {op : BinaryOp} (fires : operation? (.binary i op l r) = some o) :
    tree (.binary i op l r) = libraryCall i (receiverTree l (tree l)) o.method (tree r) := by
  rw [tree, if_pos (fires_of_some fires), function_binary fires]

theorem tree_binary_of_none {op : BinaryOp} (plain : operation? (.binary i op l r) = none) :
    tree (.binary i op l r) = .binary i op (tree l) (tree r) := by
  rw [tree, if_neg (operation_none_iff.1 plain)]

theorem tree_assign {op : AssignOp} (fires : operation? (.assign i op l r) = some o) :
    tree (.assign i op l r) =
      .assign i .assign (tree l) (libraryCall ⟨i.span, .uint256⟩ (tree l) o.method (tree r)) := by
  rw [tree, if_pos (fires_of_some fires), function_assign fires]

theorem tree_assign_of_none {op : AssignOp} (plain : operation? (.assign i op l r) = none) :
    tree (.assign i op l r) = .assign i op (tree l) (tree r) := by
  rw [tree, if_neg (operation_none_iff.1 plain)]

end Nodes

@[simp] theorem info_tree (e : Expr Ty) : (tree e).info = e.info := by
  cases e with
  | binary i op l r => unfold tree; split <;> rfl
  | assign i op l r => unfold tree; split <;> rfl
  | index i base k => cases k <;> rfl
  | _ => rfl

/-- The tree of an expression has its type. -/
theorem type_tree (e : Expr Ty) : (tree e).type = e.type := by
  simp only [Expr.type, Expr.note, info_tree]

@[simp] theorem name_tree (e : Expr Ty) : (tree e).name? = e.name? := by
  cases e with
  | binary i op l r => unfold tree; split <;> rfl
  | assign i op l r => unfold tree; split <;> rfl
  | index i base k => cases k <;> rfl
  | _ => rfl

/-- The receiver of a call has the checked type. -/
theorem type_receiverTree (l : Expr Ty) : (receiverTree l (tree l)).type = .uint256 := by
  unfold receiverTree
  by_cases uint : l.type = .uint256
  · rw [if_neg (not_not_intro uint)]
    split
    · exact uint
    · rw [type_tree, uint]
  · rw [if_pos uint]
    rfl

theorem children_tree {e : Expr Ty} (h : operation? e = none) :
    (tree e).children = e.children.map tree := by
  cases e with
  | binary i op l r => simp [tree_binary_of_none h, Expr.children]
  | assign i op l r => simp [tree_assign_of_none h, Expr.children]
  | index i base k => cases k <;> rfl
  | call i callee args names => simp [tree, Expr.children, trees_eq]
  | tuple i es => simp [tree, Expr.children, trees_eq]
  | _ => rfl

theorem operation_libraryCall (i : Info Ty) (receiver argument : Expr Ty) (function : String) :
    operation? (libraryCall i receiver function argument) = none := rfl

theorem operation_plainAssign (i : Info Ty) (l r : Expr Ty) :
    operation? (.assign i .assign l r) = none := by
  simp [operation?, Operation.ofAssign?]

theorem operation_self_tree (e : Expr Ty) : operation? (tree e) = none := by
  cases fires : operation? e with
  | some o =>
      cases e with
      | binary i op l r => rw [tree_binary fires, operation_libraryCall]
      | assign i op l r => rw [tree_assign fires, operation_plainAssign]
      | _ => contradiction
  | none =>
      cases e with
      | binary i op l r =>
          rw [tree_binary_of_none fires]
          exact fires
      | assign i op l r =>
          rw [tree_assign_of_none fires]
          simpa only [operation?, type_tree] using fires
      | index i base k => cases k <;> rfl
      | _ => rfl

theorem mem_libraryCall {i : Info Ty} {receiver argument d : Expr Ty} {function : String} :
    d ∈ (libraryCall i receiver function argument).subexpressions ↔
      d ∈ receiver.subexpressions ∨ d = .member ⟨i.span, .unknown⟩ receiver ⟨function, i.span⟩ ∨
        d ∈ argument.subexpressions ∨ d = libraryCall i receiver function argument := by
  simp [libraryCall, Expr.subexpressions, Expr.subexpressionsAll]

theorem subset_receiverTree {l t d : Expr Ty} (h : d ∈ t.subexpressions) :
    d ∈ (receiverTree l t).subexpressions := by
  unfold receiverTree
  split
  · simp [Expr.subexpressions, Expr.subexpressionsAll, h]
  · split
    · simp [Expr.subexpressions, Expr.subexpressionsAll, h]
    · exact h

theorem mem_receiverTree {l t d : Expr Ty} (h : d ∈ (receiverTree l t).subexpressions) :
    d ∈ t.subexpressions ∨ operation? d = none := by
  unfold receiverTree at h
  split at h
  · simp only [Expr.subexpressions, Expr.subexpressionsAll, List.append_nil, List.mem_append,
      List.mem_singleton] at h
    rcases h with (rfl | h) | rfl
    · exact .inr rfl
    · exact .inl h
    · exact .inr rfl
  · split at h
    · simp only [Expr.subexpressions, Expr.subexpressionsAll, List.append_nil, List.mem_append,
        List.mem_singleton] at h
      rcases h with h | rfl
      · exact .inl h
      · exact .inr rfl
    · exact .inl h

/-- No checked operation remains in a tree. -/
theorem operation_tree (e : Expr Ty) : ∀ d ∈ (tree e).subexpressions, operation? d = none := by
  induction e using Expr.induction_children with
  | node e ih =>
    intro d hd
    cases fires : operation? e with
    | none =>
        rcases Expr.mem_subexpressions.1 hd with rfl | ⟨c', hc', hd⟩
        · exact operation_self_tree e
        · obtain ⟨c, hc, rfl⟩ := List.mem_map.1 (children_tree fires ▸ hc')
          exact ih c hc d hd
    | some o =>
        cases e with
        | binary i op l r =>
            simp only [tree_binary fires, mem_libraryCall] at hd
            rcases hd with hd | rfl | hd | rfl
            · exact (mem_receiverTree hd).elim (ih l (by simp [Expr.children]) d) id
            · rfl
            · exact ih r (by simp [Expr.children]) d hd
            · rfl
        | assign i op l r =>
            simp only [tree_assign fires, Expr.subexpressions, List.mem_append, List.mem_singleton,
              mem_libraryCall] at hd
            rcases hd with (hd | hd | rfl | hd | rfl) | rfl
            · exact ih l (by simp [Expr.children]) d hd
            · exact ih l (by simp [Expr.children]) d hd
            · rfl
            · exact ih r (by simp [Expr.children]) d hd
            · rfl
            · exact operation_plainAssign _ _ _
        | _ => contradiction

/-- What an expression contains is in its tree as the tree of what it was. -/
theorem tree_mem (e : Expr Ty) : ∀ d ∈ e.subexpressions, tree d ∈ (tree e).subexpressions := by
  induction e using Expr.induction_children with
  | node e ih =>
    intro d hd
    rcases Expr.mem_subexpressions.1 hd with rfl | ⟨c, hc, hd⟩
    · exact Expr.self_mem_subexpressions _
    have inner := ih c hc d hd
    cases fires : operation? e with
    | none =>
        refine Expr.mem_subexpressions.2 (.inr ⟨tree c, ?_, inner⟩)
        exact children_tree fires ▸ List.mem_map_of_mem hc
    | some o =>
        cases e with
        | binary i op l r =>
            simp only [Expr.children, List.mem_cons, List.not_mem_nil, or_false] at hc
            simp only [tree_binary fires, mem_libraryCall]
            rcases hc with rfl | rfl
            · exact .inl (subset_receiverTree inner)
            · exact .inr (.inr (.inl inner))
        | assign i op l r =>
            simp only [Expr.children, List.mem_cons, List.not_mem_nil, or_false] at hc
            simp only [tree_assign fires, Expr.subexpressions, List.mem_append, mem_libraryCall]
            rcases hc with rfl | rfl
            · exact .inl (.inl inner)
            · exact .inl (.inr (.inr (.inr (.inl inner))))
        | _ => contradiction

end SafeSubset.Checked
