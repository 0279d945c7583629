import SafeSubset.Checked.Operation
import SafeSubset.Proofs.Grammar.Standing
import SafeSubset.Proofs.Typing.Ancestry
import SafeSubset.Proofs.Typing.Declarations
import SafeSubset.Proofs.Typing.Visible

/-! Fields of structures. A file has one table of structures, by name alone, in which the
last definition of a name counts. So what a contract sees of its own structure depends on
the contracts behind it, and not on those before it. -/
namespace SafeSubset

variable {α : Type}

/-- The structures that the contract itself defines, in source order. -/
def Contract.structs (c : Contract α) : List StructDef :=
  c.members.filterMap fun
    | .struct s => some s
    | _ => none

/-- The state variable of a name that the contract itself declares, the first if there are
several. -/
def Contract.declared? (c : Contract α) (name : String) : Option (Variable α) :=
  (c.members.filterMap fun
    | .state v => some v
    | _ => none).find? fun v => v.name.text == name

/-- The name that a written type is, without what qualifies it. -/
def TypeName.name? : TypeName → Option String
  | .user _ path => some path.name.text
  | _ => none

/-- The name and the member of a member access on nothing but a name. -/
def Expr.access? : Expr α → Option (String × String)
  | .member _ base m => base.name?.map fun name => (name, m.text)
  | _ => none

/-- A member access in a contract on a state variable of its own, whose type is written as the
name of the one structure of that name that the contract defines. -/
structure Contract.OwnField (c : Contract α) (d : StructDef) (site : Site α) (e : Expr α)
    (field : String) : Prop where
  own : c.structs.filter (fun s => s.name.text == d.name.text) = [d]
  stands : site ∈ c.sites
  inside : e ∈ site.2.subexpressions
  access : ∃ name v, e.access? = some (name, field) ∧ name ∉ site.1 ∧
    c.declared? name = some v ∧ v.type.name? = some d.name.text

namespace Typing

/-- The last structure of a name that a file defines. -/
def lastStruct? (u : SourceUnit α) (name : String) : Option StructDef :=
  (structDefs u).reverse.find? fun s => s.name.text == name

/-- The type that is written for a field of a structure, unknown where there is none of that
name. -/
def writtenType (u : SourceUnit α) (d : StructDef) (field : String) : Ty :=
  ((d.fields.find? fun f => f.name.text == field).map fun f => (FileScope.of u).resolve f.type).getD
    .unknown

theorem lookup_map {ε β : Type} (key : ε → String) (value : ε → β) (es : List ε) (name : String) :
    (es.map fun e => (key e, value e)).lookup name = (es.find? fun e => key e == name).map value := by
  induction es with
  | nil => rfl
  | cons e es ih =>
      by_cases same : key e = name
      · simp [same]
      · have other : (name == key e) = false := by simpa using Ne.symm same
        simp [List.lookup_cons, same, other, ih]

theorem fieldType_of_last {u : SourceUnit α} {name : String} {d : StructDef}
    (last : lastStruct? u name = some d) (field : String) :
    (FileScope.of u).fieldType name field = writtenType u d field := by
  have found : (FileScope.of u).structs.lookup name =
      some (d.fields.map fun f => (f.name.text, (TypeNames.of u).resolve f.type)) := by
    show ((structDefs u).reverse.map _).lookup name = _
    rw [lookup_map, show (structDefs u).reverse.find? _ = some d from last]
    rfl
  rw [FileScope.fieldType, found, Option.bind_some, lookup_map]
  rfl

theorem resolve_struct {u : SourceUnit α} {name : String} {d : StructDef} {t : TypeName}
    (last : lastStruct? u name = some d) (named : t.name? = some name) :
    (FileScope.of u).resolve t = .struct name := by
  have known : name ∈ (TypeNames.of u).structs := by
    have same : d.name.text = name := by simpa using List.find?_some last
    have member := List.mem_reverse.1 (List.mem_of_find?_eq_some last)
    exact same ▸ List.mem_map_of_mem (f := fun s : StructDef => s.name.text) member
  cases t with
  | user span path =>
      obtain rfl : path.name.text = name := by simpa [TypeName.name?] using named
      exact if_pos known
  | _ => cases named

/-- The last structure of a name is the contract's own if it has one and no contract behind
it has another. -/
theorem lastStruct_own {u : SourceUnit α} {before after : List (Contract α)} {c : Contract α}
    (here : u.contracts = before ++ c :: after) {name : String} {d : StructDef}
    (own : c.structs.filter (fun s => s.name.text == name) = [d])
    (none : ∀ b ∈ after, ∀ s ∈ b.structs, s.name.text ≠ name) : lastStruct? u name = some d := by
  have behind : (after.flatMap Contract.structs).reverse.find? (fun s => s.name.text == name) = .none := by
    rw [List.find?_eq_none]
    intro s member
    obtain ⟨b, inside, member⟩ := List.mem_flatMap.1 (List.mem_reverse.1 member)
    simpa using none b inside s member
  have first : c.structs.reverse.find? (fun s => s.name.text == name) = some d := by
    rw [← List.head?_filter, List.filter_reverse, own]
    rfl
  have split : structDefs u = before.flatMap Contract.structs ++
      (c.structs ++ after.flatMap Contract.structs) := by
    show u.contracts.flatMap Contract.structs = _
    rw [here, List.flatMap_append, List.flatMap_cons]
  rw [lastStruct?, split, List.reverse_append, List.reverse_append, List.find?_append,
    List.find?_append, behind, first]
  rfl

theorem exists_lastStruct {u : SourceUnit α} {c : Contract α} (inside : c ∈ u.contracts)
    {s : StructDef} (member : s ∈ c.structs) : ∃ d, lastStruct? u s.name.text = some d := by
  have known : s ∈ (structDefs u).reverse :=
    List.mem_reverse.2 (List.mem_flatMap.2 ⟨c, inside, member⟩)
  have found : (lastStruct? u s.name.text).isSome = true :=
    List.find?_isSome.2 ⟨s, known, by simp⟩
  exact Option.isSome_iff_exists.1 found

section Scopes

variable {file : FileScope} {contracts : List (Contract α)} {c : Contract α}

theorem lookup_stateTypes (c : Contract α) (name : String) :
    (stateTypes file c).lookup name = (c.declared? name).map fun v => file.resolve v.type := by
  have entries : stateTypes file c = (c.members.filterMap fun
      | .state v => some v
      | _ => none).map fun v => (v.name.text, file.resolve v.type) := by
    rw [stateTypes, List.map_filterMap]
    refine List.filterMap_congr fun m _ => ?_
    cases m <;> rfl
  rw [entries, lookup_map, Contract.declared?]

/-- A state variable of its own is what a contract sees under the name. -/
theorem lookup_state (member : c ∈ contracts) {name : String} {t : Ty}
    (own : (stateTypes file c).lookup name = some t) :
    (ContractScope.of file contracts c).state.lookup name = some t := by
  obtain ⟨bases, line⟩ := ancestry_eq_cons member
  simp only [ContractScope.of, line, List.flatMap_cons, List.lookup_append, own, Option.some_or]

theorem type_of_name {scope : Scope} {e : Expr α} {name : String}
    (named : (annotate scope e).name? = some name) : (annotate scope e).type = scope.nameType name := by
  cases e with
  | identifier i n =>
      obtain rfl : n = name := by simpa [annotate, Expr.name?] using named
      rfl
  | index i base k => cases k <;> cases named
  | _ => cases named

/-- A member access on a name that is no local variable's, and a structure in the state. -/
theorem type_access {scope : Scope} {e : Expr α} {name field struct : String}
    (access : (annotate scope e).access? = some (name, field))
    (free : scope.locals.lookup name = none)
    (state : scope.contract.state.lookup name = some (.struct struct)) :
    (annotate scope e).type = scope.file.fieldType struct field := by
  have found : scope.variableType? name = some (.struct struct) := by
    simp [Scope.variableType?, free, state]
  cases e with
  | member i base m =>
      obtain ⟨_, named, same⟩ := Option.map_eq_some_iff.1 access
      obtain ⟨rfl, rfl⟩ := Prod.mk.inj same
      have type : (annotate scope base).type = .struct struct := by
        rw [type_of_name named]
        unfold Scope.nameType
        rw [found]
        rfl
      show scope.memberType (annotate scope base) m.text = _
      simp only [Scope.memberType, named, Option.bind_some, found, Option.isNone_some,
        Bool.false_eq_true, if_false, Option.getD_none, type, Scope.valueMember]
  | index i base k => cases k <;> cases access
  | _ => cases access

end Scopes

section Files

/-- What a file says about types it says with its types, too. -/
theorem structs_contractDef (s : Surroundings) (c : Contract α) :
    (s.contractDef c).structs = c.structs := by
  simp only [Contract.structs, Surroundings.contractDef, List.filterMap_map]
  refine List.filterMap_congr fun m _ => ?_
  cases m <;> rfl

theorem fileScope_annotate (u : SourceUnit α) : FileScope.of u.annotate = FileScope.of u := by
  have structs : structDefs u.annotate = structDefs u := by
    show u.annotate.contracts.flatMap Contract.structs = u.contracts.flatMap Contract.structs
    rw [contracts_annotate, List.flatMap_map]
    exact List.flatMap_congr fun c _ => structs_contractDef _ c
  have enums : enumDefs u.annotate = enumDefs u := by
    rw [enumDefs, enumDefs, contracts_annotate, List.flatMap_map]
    refine List.flatMap_congr fun c _ => ?_
    simp only [typed, Surroundings.contractDef, List.filterMap_map]
    refine List.filterMap_congr fun m _ => ?_
    cases m <;> rfl
  have names : TypeNames.of u.annotate = TypeNames.of u := by
    rw [TypeNames.of, TypeNames.of, structs, enums, contracts_annotate, List.map_map]
    rfl
  rw [FileScope.of, FileScope.of, names, structs]

open Checked (Operation operation?)

/-- Which operations with a typed part are checked. -/
theorem operation_binary {e l r : Expr Ty} (typed : Typed α e) {i : Info Ty} {op : BinaryOp}
    (inside : .binary i op l r ∈ e.subexpressions) : operation? (.binary i op l r) =
      if (op.resultType l.type r.type).isChecked then Operation.ofBinary? op else none := by
  obtain ⟨scope, d, same⟩ := typed.mem _ inside
  have note : i.note = op.resultType l.type r.type := by
    cases d with
    | binary j op l r =>
        cases same
        rfl
    | index j base k => cases k <;> cases same
    | _ => cases same
  rw [operation?, note]

/-- The type of a field where a contract has a structure of its own in its state. The last
structure of that name in the file counts, which is the contract's own if no contract behind
it defines one; and by this type the operations on the field are checked. -/
theorem type_field {source : Source} {u : SourceUnit Ty} (accepted : source.front = .ok u)
    {before after : List (Contract Ty)} {c : Contract Ty} (here : u.contracts = before ++ c :: after)
    {d : StructDef} {site : Site Ty} {e : Expr Ty} {field : String}
    (reads : c.OwnField d site e field) :
    ∃ last, lastStruct? u d.name.text = some last ∧ e.type = writtenType u last field ∧
      ((∀ b ∈ after, ∀ s ∈ b.structs, s.name.text ≠ d.name.text) → last = d) ∧
      (∀ i op r, .assign i op e r ∈ site.2.subexpressions → operation? (.assign i op e r) =
        if (writtenType u last field).isChecked then Operation.ofAssign? op else none) ∧
      (∀ i op r, .binary i op e r ∈ site.2.subexpressions → operation? (.binary i op e r) =
        if (op.resultType (writtenType u last field) r.type).isChecked then Operation.ofBinary? op
        else none) ∧
      ∀ i op l, .binary i op l e ∈ site.2.subexpressions → operation? (.binary i op l e) =
        if (op.resultType l.type (writtenType u last field)).isChecked then Operation.ofBinary? op
        else none := by
  obtain ⟨own, stands, inside, name, v, access, free, declared, named⟩ := reads
  have member : c ∈ u.contracts := here ▸ List.mem_append.2 (.inr List.mem_cons_self)
  obtain ⟨last, found⟩ : ∃ last, lastStruct? u d.name.text = some last := by
    obtain ⟨known, -⟩ := List.mem_filter.1 (own ▸ List.mem_singleton_self d)
    exact exists_lastStruct member known
  have type : e.type = writtenType u last field := by
    obtain ⟨w, -, -, rfl⟩ := Source.front_annotate accepted
    rw [contracts_annotate] at member
    obtain ⟨w', known, rfl⟩ := List.mem_map.1 member
    obtain ⟨locals, root, shows, same⟩ := types_contractDef _ w' site stands
    obtain ⟨e, rfl⟩ := mem_subexpressions_annotate (same ▸ inside)
    rw [← fieldType_of_last found, fileScope_annotate]
    refine type_access access (shows.lookup_eq_none free) (lookup_state known ?_)
    rw [(sameDeclarations_contractDef (surroundings (FileScope.of w) w.contracts w') _ w').state]
    show (stateTypes (FileScope.of w) (typed (FileScope.of w) w.contracts w')).lookup name = _
    rw [lookup_stateTypes, declared, Option.map_some, ← fileScope_annotate w,
      resolve_struct found named]
  have whole : Typed Unit site.2 := Source.front_typed accepted member site.2
    (Contract.mem_expressions_iff_sites.2 ⟨site, stands, site.2.self_mem_subexpressions⟩)
  refine ⟨last, found, type, ?_, ?_, ?_, ?_⟩
  · intro none
    have same := lastStruct_own here own none
    rw [found] at same
    exact Option.some.inj same
  · intro i op r _
    rw [operation?, type]
  · intro i op r occurs
    rw [operation_binary whole occurs, type]
  · intro i op l occurs
    rw [operation_binary whole occurs, type]

/-- Whether a contract reads the field `f` of its own structure `S` through `v`, as what is
written for it and as what it is typed. -/
def readsOwn (u : SourceUnit Ty) (written typed : Ty) (c : Contract Ty) : Bool :=
  c.sites.any fun site => site.2.subexpressions.any fun e =>
    e.access? = some ("v", "f") && decide ("v" ∉ site.1) && e.type = typed &&
      (c.declared? "v").any (fun v => v.type.name? = some "S") &&
      match c.structs.filter fun s => s.name.text == "S" with
      | [d] => writtenType u d "f" = written
      | _ => false

theorem ownField_of_readsOwn {u : SourceUnit Ty} {written typed : Ty} {c : Contract Ty}
    (found : readsOwn u written typed c = true) : ∃ d site e, c.OwnField d site e "f" ∧
      writtenType u d "f" = written ∧ e.type = typed := by
  obtain ⟨site, stands, found⟩ := List.any_eq_true.1 found
  obtain ⟨e, inside, found⟩ := List.any_eq_true.1 found
  simp only [Bool.and_eq_true, decide_eq_true_eq] at found
  obtain ⟨⟨⟨⟨access, free⟩, type⟩, holder⟩, own⟩ := found
  obtain ⟨v, declared, named⟩ := (Option.any_eq_true _ _).1 holder
  split at own
  · next d only =>
    have same : d.name.text = "S" := by
      have member := List.mem_filter.1 (only ▸ List.mem_singleton_self d)
      simpa using member.2
    refine ⟨d, site, e, ⟨?_, stands, inside, "v", v, access, free, declared, ?_⟩, ?_, type⟩
    · rw [same, only]
    · simpa [same] using named
    · simpa using own
  · cases own

/-- A contract with a structure of its own in its state. -/
def holderSource : Source :=
  "contract A \x7b struct S \x7b uint256 f; \x7d S v; function g() \x7b v.f + 1; \x7d \x7d ".toList

/-- A contract with another structure of that name. -/
def namesakeSource : Source := "contract B \x7b struct S \x7b uint8 f; \x7d \x7d ".toList

/-- Before the contract, the other one changes nothing. -/
theorem type_field_own : ∃ u c d site e last, (namesakeSource ++ holderSource).front = .ok u ∧
    c ∈ u.contracts ∧ c.OwnField d site e "f" ∧ lastStruct? u d.name.text = some last ∧
    e.type = writtenType u last "f" ∧ writtenType u d "f" = .uint256 := by
  have accepted : (namesakeSource ++ holderSource).front.toOption.any
      (fun u => u.contracts.any (readsOwn u .uint256 .uint256)) = true := by
    decide +kernel
  obtain ⟨u, accepted, found⟩ := exists_of_any accepted
  obtain ⟨c, member, found⟩ := List.any_eq_true.1 found
  obtain ⟨d, site, e, reads, written, -⟩ := ownField_of_readsOwn found
  obtain ⟨before, after, here⟩ := List.append_of_mem member
  obtain ⟨last, known, type, -⟩ := type_field accepted here reads
  exact ⟨u, c, d, site, e, last, accepted, member, reads, known, type, written⟩

/-- Behind the contract, it changes the type of the field that the contract reads. -/
theorem type_field_namesake : ∃ u c d site e, (holderSource ++ namesakeSource).front = .ok u ∧
    c ∈ u.contracts ∧ c.OwnField d site e "f" ∧ e.type ≠ writtenType u d "f" := by
  have accepted : (holderSource ++ namesakeSource).front.toOption.any
      (fun u => u.contracts.any (readsOwn u .uint256 (.integer (.unsigned 8)))) = true := by
    decide +kernel
  obtain ⟨u, accepted, found⟩ := exists_of_any accepted
  obtain ⟨c, member, found⟩ := List.any_eq_true.1 found
  obtain ⟨d, site, e, reads, written, type⟩ := ownField_of_readsOwn found
  refine ⟨u, c, d, site, e, accepted, member, reads, ?_⟩
  rw [written, type]
  decide

end Files

end Typing
end SafeSubset
