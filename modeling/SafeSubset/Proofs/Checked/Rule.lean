import SafeSubset.Checked.Rewrite

/-! The rule for what is replaced, apart from the program: which expressions, by a call of
which function of the library, and which operands have to stand in parentheses before it.
The program goes by it. -/
namespace SafeSubset.Checked

/-- The rule for what is replaced: sums, differences and products of the checked type, and
assignments of these to a place of that type. -/
inductive Fires : Expr Ty → Prop
  | binary {i : Info Ty} {op : BinaryOp} {l r : Expr Ty} (checked : i.note = .uint256)
      (operation : op ∈ [.add, .subtract, .multiply]) : Fires (.binary i op l r)
  | assign {i : Info Ty} {op : AssignOp} {l r : Expr Ty} (checked : l.type = .uint256)
      (operation : op ∈ [.add, .subtract, .multiply]) : Fires (.assign i op l r)

/-- What binds more loosely than a member access: operations between operands or before one. -/
inductive Loose : Expr Ty → Prop
  | binary (i : Info Ty) (op : BinaryOp) (l r : Expr Ty) : Loose (.binary i op l r)
  | assign (i : Info Ty) (op : AssignOp) (l r : Expr Ty) : Loose (.assign i op l r)
  | conditional (i : Info Ty) (c t f : Expr Ty) : Loose (.conditional i c t f)
  | unary (i : Info Ty) (op : UnaryOp) (e : Expr Ty) : Loose (.unary i op .before e)

/-- The function of the library for sums, differences and products. -/
def binaryFunction : BinaryOp → String
  | .add => "add"
  | .subtract => "sub"
  | .multiply => "mul"
  | _ => ""

/-- The function of the library for assignments of these. -/
def assignFunction : AssignOp → String
  | .add => "add"
  | .subtract => "sub"
  | .multiply => "mul"
  | _ => ""

/-- One of the directives of the contract is about the library. -/
def Attaches (c : Contract Ty) : Prop :=
  ∃ d, Member.directive d ∈ c.members ∧ isLibraryName d.library.name.text = true

theorem isChecked_iff {t : Ty} : t.isChecked = true ↔ t = .uint256 := by simp [Ty.isChecked]

theorem ofBinary?_isSome (op : BinaryOp) :
    (Operation.ofBinary? op).isSome = true ↔ op ∈ [.add, .subtract, .multiply] := by
  cases op <;> decide

theorem ofAssign?_isSome (op : AssignOp) :
    (Operation.ofAssign? op).isSome = true ↔ op ∈ [.add, .subtract, .multiply] := by
  cases op <;> decide

theorem fires_iff (e : Expr Ty) : (operation? e).isSome = true ↔ Fires e := by
  have guarded : ∀ (t : Ty) (op : Option Operation),
      (if t.isChecked then op else none).isSome = true ↔ t = .uint256 ∧ op.isSome = true := by
    intro t op
    rw [← isChecked_iff]
    split <;> simp_all
  cases e with
  | binary i op l r =>
      refine (guarded i.note _).trans ((and_congr_right fun _ => ofBinary?_isSome op).trans ?_)
      exact ⟨fun h => .binary h.1 h.2, fun h => by cases h with | binary checked own => exact ⟨checked, own⟩⟩
  | assign i op l r =>
      refine (guarded l.type _).trans ((and_congr_right fun _ => ofAssign?_isSome op).trans ?_)
      exact ⟨fun h => .assign h.1 h.2, fun h => by cases h with | assign checked own => exact ⟨checked, own⟩⟩
  | _ => exact ⟨nofun, nofun⟩

theorem loose_iff (e : Expr Ty) : bindsLoosely e = true ↔ Loose e := by
  cases e with
  | binary i op l r => exact ⟨fun _ => .binary i op l r, fun _ => rfl⟩
  | assign i op l r => exact ⟨fun _ => .assign i op l r, fun _ => rfl⟩
  | conditional i c t f => exact ⟨fun _ => .conditional i c t f, fun _ => rfl⟩
  | unary i op fixity e =>
      cases fixity with
      | before => exact ⟨fun _ => .unary i op e, fun _ => rfl⟩
      | after => exact ⟨nofun, nofun⟩
  | _ => exact ⟨nofun, nofun⟩

theorem attaches_iff (c : Contract Ty) : attachesLibrary c = true ↔ Attaches c := by
  unfold attachesLibrary Attaches Contract.directives
  rw [List.any_eq_true]
  constructor
  · rintro ⟨d, member, named⟩
    obtain ⟨m, inside, same⟩ := List.mem_filterMap.1 member
    cases m <;> cases same
    exact ⟨d, inside, named⟩
  · rintro ⟨d, inside, named⟩
    exact ⟨d, List.mem_filterMap.2 ⟨_, inside, rfl⟩, named⟩

theorem Fires.note {i : Info Ty} {op : BinaryOp} {l r : Expr Ty} (h : Fires (.binary i op l r)) :
    i.note = .uint256 := by
  obtain ⟨checked, -⟩ := h
  exact checked

theorem Fires.target {i : Info Ty} {op : AssignOp} {l r : Expr Ty} (h : Fires (.assign i op l r)) :
    l.type = .uint256 := by
  obtain ⟨⟩ | ⟨checked, -⟩ := h
  exact checked

instance : DecidablePred Fires := fun e => decidable_of_iff _ (fires_iff e)

instance : DecidablePred Loose := fun e => decidable_of_iff _ (loose_iff e)

instance : DecidablePred Attaches := fun c => decidable_of_iff _ (attaches_iff c)

theorem decide_fires (e : Expr Ty) : decide (Fires e) = (operation? e).isSome :=
  Bool.eq_iff_iff.2 (decide_eq_true_iff.trans (fires_iff e).symm)

section Operations

variable {i : Info Ty} {l r e : Expr Ty} {o : Operation}

theorem fires_of_some (fires : operation? e = some o) : Fires e := (fires_iff e).1 (by rw [fires]; rfl)

theorem operation_none_iff : operation? e = none ↔ ¬ Fires e := by
  rw [← fires_iff, Bool.not_eq_true, Option.isSome_eq_false_iff, Option.isNone_iff_eq_none]

/-- The function that the program calls for an operation is that of its operator. -/
theorem function_binary {op : BinaryOp} (fires : operation? (.binary i op l r) = some o) :
    binaryFunction op = o.method := by
  simp only [operation?] at fires
  split at fires
  · cases op <;> cases fires <;> rfl
  · cases fires

theorem function_assign {op : AssignOp} (fires : operation? (.assign i op l r) = some o) :
    assignFunction op = o.method := by
  simp only [operation?] at fires
  split at fires
  · cases op <;> cases fires <;> rfl
  · cases fires

end Operations

end SafeSubset.Checked
