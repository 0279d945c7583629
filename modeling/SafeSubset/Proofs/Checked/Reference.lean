import SafeSubset.Proofs.Checked.Rule
import SafeSubset.Proofs.Edits.Arranged
import SafeSubset.Proofs.Grammar.Placement
import SafeSubset.Proofs.Source.Bytes
import SafeSubset.Proofs.Syntax.Roots

/-! The text that a file becomes, by recursion on its syntax and without
anything pending: a checked operation becomes a call on the texts of its
operands, and around the outermost ones the source stays as it is. It goes by
the rule alone, with the texts of the calls written out. -/
namespace SafeSubset.Checked

open Edits (substituted)

/-- The source of a span with the outermost checked operations in it replaced. -/
def replaced (source : Source) (span : Span) (patches : List Edit) : Source :=
  substituted source span.stop span.start patches

/-- A call of a function of the library. -/
def calling (receiver : Source) (function : String) (argument : Source) : Source :=
  receiver ++ ".".toList ++ function.toList ++ "(".toList ++ argument ++ ")".toList

/-- The text for the left operand `l`, as the receiver of a call. -/
def receiving (l : Expr Ty) (text : Source) : Source :=
  if l.type ≠ .uint256 then "uint256(".toList ++ text ++ ")".toList
  else if Loose l ∧ ¬ Fires l then "(".toList ++ text ++ ")".toList
  else text

mutual
/-- The outermost checked operations in an expression, each with its text. -/
def patches (source : Source) : Expr Ty → List Edit
  | .binary i op l r =>
      if Fires (.binary i op l r) then
        let left := replaced source l.span (patches source l)
        let right := replaced source r.span (patches source r)
        [(i.span, calling (receiving l left) (binaryFunction op) right)]
      else patches source l ++ patches source r
  | .assign i op l r =>
      if Fires (.assign i op l r) then
        let left := replaced source l.span (patches source l)
        let right := replaced source r.span (patches source r)
        [(i.span, left ++ " = ".toList ++ calling left (assignFunction op) right)]
      else patches source l ++ patches source r
  | .unary _ _ _ e => patches source e
  | .call _ callee args _ => patches source callee ++ patchesAll source args
  | .member _ base _ => patches source base
  | .index _ base none => patches source base
  | .index _ base (some k) => patches source base ++ patches source k
  | .conditional _ c t f => patches source c ++ patches source t ++ patches source f
  | .tuple _ es => patchesAll source es
  | .identifier .. | .number .. | .string .. | .bool .. | .elementary .. | .new .. => []

def patchesAll (source : Source) : List (Expr Ty) → List Edit
  | [] => []
  | e :: es => patches source e ++ patchesAll source es
end

/-- The text for an expression: its source with the outermost checked operations
in it replaced. -/
def outText (source : Source) (e : Expr Ty) : Source := replaced source e.span (patches source e)

/-- Whether there is something to replace in a contract, and it does not attach the
library itself. -/
def changes (c : Contract Ty) : Bool := decide (¬ Attaches c ∧ ∃ e ∈ c.expressions, Fires e)

/-- What is replaced in a contract, and put in before it, if it is the first, and
before its first member. -/
def contractPatches (source : Source) (first : Bool) (c : Contract Ty) : List Edit :=
  (if first then [(.point c.span.start, librarySource)] else []) ++
    (c.bases.flatMap Base.roots).flatMap (patches source) ++
    (.point c.entry, directiveSource) ::
      (c.members.flatMap Member.roots).flatMap (patches source)

/-- What is replaced and put in, in all contracts that change. -/
def filePatches (source : Source) : (first : Bool) → List (Contract Ty) → List Edit
  | _, [] => []
  | first, c :: cs =>
      if changes c then contractPatches source first c ++ filePatches source false cs
      else filePatches source first cs

variable {source : Source}

theorem calling_eq (receiver : Source) (o : Operation) (argument : Source) :
    calling receiver o.method argument = callText receiver o argument := by
  simp [calling, callText]

theorem receiving_eq (l : Expr Ty) (text : Source) :
    receiving l text = receiverText l (operation? l).isSome text := by
  have typed : (l.type ≠ .uint256) = ((!l.type.isChecked) = true) := by simp [← isChecked_iff]
  have wrapped : (Loose l ∧ ¬ Fires l) = ((!(operation? l).isSome && bindsLoosely l) = true) := by
    simp [← fires_iff, ← loose_iff, and_comm]
  simp only [receiving, receiverText, typed, wrapped]
  rfl

theorem changes_eq (c : Contract Ty) :
    changes c = (!attachesLibrary c && c.expressions.any fun e => (operation? e).isSome) := by
  rw [Bool.eq_iff_iff, changes, decide_eq_true_iff]
  simp [← attaches_iff, ← fires_iff]

/-- The place of the directive is where the contract is entered. -/
theorem directivePlace_eq (c : Contract Ty) : directivePlace c = c.entry := by
  unfold directivePlace Contract.entry
  cases c.members <;> rfl

theorem filePatches_cons (first : Bool) (c : Contract Ty) (cs : List (Contract Ty)) :
    filePatches source first (c :: cs) =
      if changes c then contractPatches source first c ++ filePatches source false cs
      else filePatches source first cs := rfl

theorem patchesAll_eq (es : List (Expr Ty)) : patchesAll source es = es.flatMap (patches source) := by
  induction es with
  | nil => rfl
  | cons e es ih => simp [patchesAll, ih]

/-- Around checked operations the source stays as it is. -/
theorem patches_of_none {e : Expr Ty} (plain : operation? e = none) :
    patches source e = e.children.flatMap (patches source) := by
  cases e with
  | binary i op l r | assign i op l r => simp [patches, operation_none_iff.1 plain, Expr.children]
  | index i base k => cases k <;> simp [patches, Expr.children]
  | _ => simp [patches, patchesAll_eq, Expr.children]

theorem replaced_whole (span : Span) (text : Source) :
    replaced source span [(span, text)] = text := by
  simp [replaced, substituted]

/-- A checked operation is replaced as a whole. -/
theorem patches_of_some {e : Expr Ty} {o : Operation} (fires : operation? e = some o) :
    patches source e = [(e.span, outText source e)] := by
  cases e with
  | binary i op l r | assign i op l r =>
      simp [outText, patches, fires_of_some fires, Expr.span, Expr.info, replaced_whole]
  | _ => contradiction

theorem outText_binary_of_fires {i : Info Ty} {op : BinaryOp} {l r : Expr Ty}
    (fires : Fires (.binary i op l r)) :
    outText source (.binary i op l r) =
      calling (receiving l (outText source l)) (binaryFunction op) (outText source r) := by
  simp [outText, patches, fires, Expr.span, Expr.info, replaced_whole]

theorem outText_assign_of_fires {i : Info Ty} {op : AssignOp} {l r : Expr Ty}
    (fires : Fires (.assign i op l r)) :
    outText source (.assign i op l r) =
      outText source l ++ " = ".toList ++
        calling (outText source l) (assignFunction op) (outText source r) := by
  simp [outText, patches, fires, Expr.span, Expr.info, replaced_whole]

theorem outText_binary {i : Info Ty} {op : BinaryOp} {l r : Expr Ty} {o : Operation}
    (fires : operation? (.binary i op l r) = some o) :
    outText source (.binary i op l r) =
      callText (receiverText l (operation? l).isSome (outText source l)) o (outText source r) := by
  rw [outText_binary_of_fires (fires_of_some fires), function_binary fires, calling_eq, receiving_eq]

theorem outText_assign {i : Info Ty} {op : AssignOp} {l r : Expr Ty} {o : Operation}
    (fires : operation? (.assign i op l r) = some o) :
    outText source (.assign i op l r) =
      outText source l ++ " = ".toList ++ callText (outText source l) o (outText source r) := by
  rw [outText_assign_of_fires (fires_of_some fires), function_assign fires, calling_eq]

end SafeSubset.Checked
