import SafeSubset.Proofs.Typing.Fields

/-! The state variable that a name stands for in a contract, by the declarations of the file.
The bases of a contract are followed in their order, and those of a base before the next one.
On this way no name is met twice, and the first contract on it that declares a variable of the
name declares what the name stands for. -/
namespace SafeSubset

variable {α : Type} {contracts : List (Contract α)} {c d : Contract α} {name : String}

/-- The contract that a name stands for in a file, the last one of that name. -/
def lastContract? (contracts : List (Contract α)) (name : String) : Option (Contract α) :=
  (contracts.filter fun d => d.name.text = name).getLast?

/-- The contracts that the bases of a contract stand for, without those that are not there. -/
def Contract.basesIn (contracts : List (Contract α)) (c : Contract α) : List (Contract α) :=
  c.bases.filterMap fun b => lastContract? contracts b.name.text

/-- The contracts `line` are met in this order where the names `visited` have been met and
`pending` is what comes next. A contract of a name met before is passed over, and the bases of
another one come before what is left. -/
inductive Meets (contracts : List (Contract α)) :
    (visited : List String) → (pending line : List (Contract α)) → Prop where
  | done {visited : List String} : Meets contracts visited [] []
  | again {visited : List String} {c : Contract α} {pending line : List (Contract α)}
      (old : c.name.text ∈ visited) (others : Meets contracts visited pending line) :
      Meets contracts visited (c :: pending) line
  | first {visited : List String} {c : Contract α} {pending line : List (Contract α)}
      (new : c.name.text ∉ visited)
      (others : Meets contracts (c.name.text :: visited) (c.basesIn contracts ++ pending) line) :
      Meets contracts visited (c :: pending) (c :: line)

/-- The state variable that a name stands for in a contract: the one that the first contract
declares, of those met from there on, that declares any of that name. -/
def StateVariable (contracts : List (Contract α)) (c : Contract α) (name : String) (v : Variable α) :
    Prop :=
  ∃ before d after, Meets contracts [] [c] (before ++ d :: after) ∧
    (∀ b ∈ before, b.declared? name = none) ∧ d.declared? name = some v

/-- What is met is determined. -/
theorem Meets.unique {visited : List String} {pending line line' : List (Contract α)}
    (meets : Meets contracts visited pending line) (meets' : Meets contracts visited pending line') :
    line = line' := by
  induction meets generalizing line' with
  | done =>
      cases meets'
      rfl
  | again old _ ih =>
      cases meets' with
      | again _ others => exact ih others
      | first new _ => exact absurd old new
  | first new _ ih =>
      cases meets' with
      | again old _ => exact absurd old new
      | first _ others => rw [ih others]

namespace Typing

theorem definition_eq_last : definition? contracts name = lastContract? contracts name := by
  rw [definition?, lastContract?, List.getLast?_eq_head?_reverse, ← List.filter_reverse,
    List.head?_filter]
  congr

theorem bases_eq : baseDefinitions (definition? contracts) c = c.basesIn contracts :=
  List.filterMap_congr fun _ _ => definition_eq_last

/-- A walk meets the contracts in their order, where the names that are left are those of the
file that have not been met. -/
theorem meets_walk (unmet visited : List String) (pending : List (Contract α))
    (within : ∀ p ∈ pending, p ∈ contracts)
    (rest : ∀ d ∈ contracts, d.name.text ∈ unmet ↔ d.name.text ∉ visited) :
    Meets contracts visited pending (walk (definition? contracts) unmet pending) := by
  induction unmet, pending using walk_induction (definition? contracts) generalizing visited with
  | nil unmet =>
      rw [walk_nil]
      exact .done
  | met unmet c pending old ih =>
      obtain ⟨first, others⟩ := List.forall_mem_cons.1 within
      have seen : c.name.text ∈ visited := by
        by_contra unseen
        exact old ((rest c first).2 unseen)
      rw [walk_met old]
      exact .again seen (ih visited others rest)
  | new unmet c pending known ih =>
      obtain ⟨first, others⟩ := List.forall_mem_cons.1 within
      have inside : ∀ p ∈ baseDefinitions (definition? contracts) c ++ pending, p ∈ contracts :=
        List.forall_mem_append.2 ⟨fun _ => mem_of_extends, others⟩
      have rest' : ∀ d ∈ contracts, d.name.text ∈ without c.name.text unmet ↔
          d.name.text ∉ c.name.text :: visited := by
        intro d member
        rw [mem_without, rest d member, List.mem_cons, not_or, and_comm]
      rw [walk_unmet known]
      exact .first ((rest c first).1 known) (bases_eq ▸ ih _ inside rest')

theorem meets_ancestry (member : c ∈ contracts) :
    Meets contracts [] [c] (ancestry contracts c) :=
  meets_walk (contracts.map (·.name.text)) [] [c] (by simpa using member) fun d known => by
    simpa using List.mem_map_of_mem (f := fun c => c.name.text) known

/-- The first contract of the ancestry that declares the name declares what it stands for. -/
theorem stateVariable_iff (member : c ∈ contracts) (name : String) (v : Variable α) :
    StateVariable contracts c name v ↔
      (ancestry contracts c).findSome? (·.declared? name) = some v := by
  rw [List.findSome?_eq_some_iff]
  constructor
  · rintro ⟨before, d, after, meets, none, declared⟩
    exact ⟨before, d, after, (meets_ancestry member).unique meets, declared, none⟩
  · rintro ⟨before, d, after, line, declared, none⟩
    exact ⟨before, d, after, line ▸ meets_ancestry member, none, declared⟩

/-- What a contract sees under a name is the type of the state variable that it stands for. -/
theorem lookup_scope_state (file : FileScope) (contracts : List (Contract α)) (c : Contract α)
    (name : String) : (ContractScope.of file contracts c).state.lookup name =
      ((ancestry contracts c).findSome? (·.declared? name)).map fun v => file.resolve v.type := by
  show ((ancestry contracts c).flatMap (stateTypes file)).lookup name = _
  generalize ancestry contracts c = line
  induction line with
  | nil => rfl
  | cons d line ih =>
      rw [List.flatMap_cons, List.lookup_append, ih, lookup_stateTypes, List.findSome?_cons]
      cases d.declared? name <;> rfl

end Typing
end SafeSubset
