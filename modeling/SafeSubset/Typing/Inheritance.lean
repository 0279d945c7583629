import SafeSubset.Typing.File

/-! What a contract sees of itself and of the contracts it inherits from, as
far as the file defines them. -/
namespace SafeSubset.Typing

variable {α : Type}

/-- The contract that a name stands for: the last one defined by that name. -/
def definition? (contracts : List (Contract α)) (name : String) : Option (Contract α) :=
  contracts.reverse.find? fun c => c.name.text == name

/-- The contracts that the bases of a contract stand for, as far as they are
defined. -/
def baseDefinitions (definition : String → Option (Contract α)) (c : Contract α) :
    List (Contract α) :=
  c.bases.filterMap fun b => definition b.name.text

def without (name : String) (names : List String) : List String := names.filter (· ≠ name)

/-- The contracts met from `pending` on by following bases, each base's own
bases before its next sibling. A name is met at most once; those not met yet
are `unmet`. As every contract met takes a name away, no more contracts are met
than there are names. -/
def lineage (definition : String → Option (Contract α)) :
    (limit : Nat) → (unmet : List String) → (pending : List (Contract α)) → List (Contract α)
  | 0, _, _ => []
  | limit + 1, unmet, pending =>
      match pending.dropWhile fun c => c.name.text ∉ unmet with
      | [] => []
      | c :: pending =>
          c :: lineage definition limit (without c.name.text unmet)
            (baseDefinitions definition c ++ pending)

/-- A contract and those it inherits from, nearest first. -/
def ancestry (contracts : List (Contract α)) (c : Contract α) : List (Contract α) :=
  let names := contracts.map (·.name.text)
  lineage (definition? contracts) names.length names [c]

/-- What a call of a function gives: its return value, or all of them. -/
def returnType (file : FileScope) (f : FunctionDef α) : Ty :=
  match f.returns with
  | [r] => file.resolve r.type
  | rs => .tuple (rs.map fun r => file.resolve r.type)

/-- The state variables and the functions that a contract sees. Of two entries
with one name the first counts. -/
structure ContractScope where
  name : String
  state : List (String × Ty)
  returns : List (String × Ty)

def stateTypes (file : FileScope) (c : Contract α) : List (String × Ty) :=
  c.members.filterMap fun
    | .state v => some (v.name.text, file.resolve v.type)
    | _ => none

def returnTypes (file : FileScope) (c : Contract α) : List (String × Ty) :=
  c.functions.filterMap fun f =>
    f.name.ident?.map fun name => (name.text, returnType file f)

def ContractScope.of (file : FileScope) (contracts : List (Contract α)) (c : Contract α) :
    ContractScope :=
  let line := ancestry contracts c
  { name := c.name.text
    state := line.flatMap (stateTypes file)
    returns := line.flatMap (returnTypes file) }

end SafeSubset.Typing
