import Mathlib.Data.List.Nodup
import Mathlib.Data.List.Range
import SafeSubset.Grammar.SourceUnit

/-! The numbers of definitions. They count the contracts and the functions of a
file together, in source order and without a gap, so no two functions of a file
have one number. -/
namespace SafeSubset

variable {α : Type}

/-- The functions among some members. -/
def memberFunctions (ms : List (Member α)) : List (FunctionDef α) :=
  ms.filterMap fun
    | .function f => some f
    | _ => none

theorem Contract.functions_eq (c : Contract α) : c.functions = memberFunctions c.members := rfl

/-- The number of a contract and those of its functions. -/
def Contract.numbers (c : Contract α) : List Nat := c.id :: c.functions.map FunctionDef.id

/-- The numbers of a file's definitions in source order. -/
def nodeNumbers (ns : List (Node α)) : List Nat :=
  ns.flatMap fun
    | .contract c => c.numbers
    | _ => []

theorem memberFunctions_numberMembers (id : Nat) (ms : List (Member α)) :
    ∃ count, (numberMembers id ms).1 = id + count ∧
      (memberFunctions (numberMembers id ms).2).map FunctionDef.id = List.range' id count := by
  induction ms generalizing id with
  | nil => exact ⟨0, rfl, rfl⟩
  | cons m ms ih =>
      cases m with
      | function f =>
          obtain ⟨count, next, numbers⟩ := ih (id + 1)
          refine ⟨count + 1, by simp only [numberMembers, next]; omega, ?_⟩
          simpa [numberMembers, memberFunctions, List.range'_succ] using numbers
      | state v | modifier v | directive v | event v | struct v | enum v =>
          obtain ⟨count, next, numbers⟩ := ih id
          exact ⟨count, next, by simpa [numberMembers, memberFunctions] using numbers⟩

theorem nodeNumbers_numberNodes (id : Nat) (ns : List (Node α)) :
    ∃ count, nodeNumbers (numberNodes id ns) = List.range' id count := by
  induction ns generalizing id with
  | nil => exact ⟨0, rfl⟩
  | cons n ns ih =>
      cases n with
      | pragma s | inclusion s => exact ih id
      | contract c =>
          obtain ⟨inner, next, numbers⟩ := memberFunctions_numberMembers (id + 1) c.members
          obtain ⟨outer, rest⟩ := ih (numberMembers (id + 1) c.members).1
          refine ⟨1 + inner + outer, ?_⟩
          have own : (numberNodes id (.contract c :: ns)) =
              .contract { c with id, members := (numberMembers (id + 1) c.members).2 } ::
                numberNodes (numberMembers (id + 1) c.members).1 ns := rfl
          rw [own]
          simp only [nodeNumbers, List.flatMap_cons, Contract.numbers, Contract.functions_eq] at rest ⊢
          rw [rest, next, numbers, ← List.range'_append_1, ← List.range'_append_1]
          simp [Nat.add_assoc]

namespace SourceUnit

/-- The numbers of a file's contracts and functions. -/
def numbers (u : SourceUnit α) : List Nat := u.contracts.flatMap Contract.numbers

theorem numbers_eq (u : SourceUnit α) : u.numbers = nodeNumbers u.nodes := by
  simp only [numbers, contracts, nodeNumbers]
  induction u.nodes with
  | nil => rfl
  | cons n ns ih => cases n <;> simpa using ih

theorem functions_sublist (u : SourceUnit α) :
    (u.functions.map FunctionDef.id).Sublist u.numbers := by
  simp only [functions, numbers, List.map_flatMap]
  induction u.contracts with
  | nil => exact .slnil
  | cons c cs ih => exact ((List.sublist_cons_self _ _).append ih)

theorem contracts_sublist (u : SourceUnit α) : (u.contracts.map Contract.id).Sublist u.numbers := by
  simp only [numbers]
  induction u.contracts with
  | nil => exact .slnil
  | cons c cs ih => exact (ih.trans (List.sublist_append_right _ _)).cons_cons c.id

end SourceUnit

/-- The definitions of a file that has been read are numbered from zero on. -/
theorem Source.parse_numbers {source : Source} {u : SourceUnit Unit}
    (parsed : (Source.parse source).unit = .ok u) : ∃ count, u.numbers = List.range count := by
  simp only [Source.parse] at parsed
  cases read : Grammar.Phrase.nodes.readAll (.start source (Token.scan source).lexemes) with
  | error f => simp [read, Except.map] at parsed
  | ok nodes =>
      simp only [read, Except.map, Except.ok.injEq] at parsed
      obtain ⟨count, numbers⟩ := nodeNumbers_numberNodes 0 nodes
      exact ⟨count, by rw [SourceUnit.numbers_eq, ← parsed, numbers, List.range_eq_range']⟩

/-- No two functions of a file that has been read have one number. -/
theorem Source.parse_function_numbers {source : Source} {u : SourceUnit Unit}
    (parsed : (Source.parse source).unit = .ok u) : (u.functions.map FunctionDef.id).Nodup := by
  obtain ⟨count, numbers⟩ := parse_numbers parsed
  exact (numbers ▸ List.nodup_range).sublist u.functions_sublist

/-- No two contracts of a file that has been read have one number. -/
theorem Source.parse_contract_numbers {source : Source} {u : SourceUnit Unit}
    (parsed : (Source.parse source).unit = .ok u) : (u.contracts.map Contract.id).Nodup := by
  obtain ⟨count, numbers⟩ := parse_numbers parsed
  exact (numbers ▸ List.nodup_range).sublist u.contracts_sublist

end SafeSubset
