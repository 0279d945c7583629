import SafeSubset.Checked.Library
import SafeSubset.Checked.Operation
import SafeSubset.Edits.Pending

/-! Replacing arithmetic by calls of the library. The expressions of a contract
are visited children first; the text for a node takes up what is pending for
its operands, so what remains is the text for the outermost ones. -/
namespace SafeSubset.Checked

/-- The texts of a call of the library. -/
def callText (receiver : Source) (op : Operation) (argument : Source) : Source :=
  receiver ++ ('.' :: op.method.toList) ++ ('(' :: argument ++ [')'])

/-- The left operand as the receiver of a call: converted if it is of another
type, in parentheses if it binds more loosely than a member access and has not
become a call itself. -/
def receiverText (l : Expr Ty) (isCall : Bool) (text : Source) : Source :=
  if !l.type.isChecked then "uint256(".toList ++ text ++ [')']
  else if !isCall && bindsLoosely l then '(' :: text ++ [')']
  else text

/-- What stands for a checked operation, and what remains pending. -/
def operationText (source : Source) (pending : Edits) (op : Operation) : Expr Ty → Source × Edits
  | .assign _ _ l r =>
      let (left, pending) := pending.consume source l.span
      let (right, pending) := pending.consume source r.span
      (left ++ " = ".toList ++ callText left op right, pending)
  | .binary _ _ l r =>
      let isCall := pending.contains l.span
      let (left, pending) := pending.consume source l.span
      let (right, pending) := pending.consume source r.span
      (callText (receiverText l isCall left) op right, pending)
  | _ => ([], pending)

/-- What is pending, and how many operations have been replaced. -/
structure Progress where
  pending : Edits
  operations : Nat

/-- Visits an expression whose children have been visited. -/
def visit (source : Source) (p : Progress) (e : Expr Ty) : Progress :=
  match operation? e with
  | none => p
  | some op =>
      let (text, pending) := operationText source p.pending op e
      ⟨pending.insert e.span text, p.operations + 1⟩

/-- What happened to a contract. -/
inductive Status where
  /-- It attaches the library itself. -/
  | optedIn
  /-- It has nothing to replace. -/
  | unchanged
  | rewritten (operations : Nat)
  deriving DecidableEq, Repr

structure ContractReport where
  name : String
  status : Status
  deriving DecidableEq, Repr

def Status.operations : Status → Nat
  | rewritten n => n
  | optedIn | unchanged => 0

structure Report where
  contracts : List ContractReport
  libraryInjected : Bool
  /-- The file defines the library itself and was left alone. -/
  libraryDefined : Bool
  deriving DecidableEq, Repr

/-- The number of operations replaced in the whole file. -/
def Report.operations (r : Report) : Nat :=
  r.contracts.foldl (fun n c => n + c.status.operations) 0

def attachesLibrary (c : Contract Ty) : Bool :=
  c.directives.any fun u => isLibraryName u.library.name.text

/-- Where the directive goes: before the first member, or before the closing
brace. -/
def directivePlace (c : Contract Ty) : Nat :=
  match c.members with
  | m :: _ => m.span.start
  | [] => c.span.stop - 1

/-- What has been done so far in a file. -/
structure FileProgress where
  pending : Edits
  report : Report

/-- Rewrites a contract. The library goes before the first one that changes. -/
def rewriteContract (source : Source) (p : FileProgress) (c : Contract Ty) : FileProgress :=
  let reported (status : Status) : List ContractReport :=
    p.report.contracts ++ [⟨c.name.text, status⟩]
  if attachesLibrary c then
    { p with report := { p.report with contracts := reported .optedIn } }
  else
    let done := c.expressions.foldl (visit source) ⟨p.pending, 0⟩
    if done.operations = 0 then
      ⟨done.pending, { p.report with contracts := reported .unchanged }⟩
    else
      let pending :=
        if p.report.libraryInjected then done.pending
        else done.pending.insertAt c.span.start librarySource
      ⟨pending.insertAt (directivePlace c) directiveSource,
        ⟨reported (.rewritten done.operations), true, false⟩⟩

structure Hardened where
  text : Source
  report : Report

/-- Rewrites a file. One that defines the library itself stays as it is. -/
def harden (source : Source) (u : SourceUnit Ty) : Hardened :=
  if u.contracts.any fun c => isLibraryName c.name.text then ⟨source, ⟨[], false, true⟩⟩
  else
    let done := u.contracts.foldl (rewriteContract source) ⟨.empty, ⟨[], false, false⟩⟩
    ⟨(done.pending.extract source ⟨0, Source.byteLength source⟩).1, done.report⟩

end SafeSubset.Checked
