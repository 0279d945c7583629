import Mathlib.Data.List.Forall2
import SafeSubset.Proofs.Syntax.Map
import SafeSubset.Typing.SourceUnit

/-! What contracts see of one another. It depends on what they declare alone,
and not on the expressions in them. -/
namespace SafeSubset.Typing

open List (Forall₂)

variable {α β : Type} {file : FileScope}

/-- The two contracts have one name, name the same bases, and declare the same
state variables and functions. -/
structure SameDeclarations (file : FileScope) (c : Contract α) (d : Contract β) : Prop where
  name : c.name.text = d.name.text
  bases : c.bases.map (·.name.text) = d.bases.map (·.name.text)
  state : stateTypes file c = stateTypes file d
  returns : returnTypes file c = returnTypes file d

theorem SameDeclarations.trans {γ : Type} {c : Contract α} {d : Contract β}
    {e : Contract γ} (cd : SameDeclarations file c d) (de : SameDeclarations file d e) :
    SameDeclarations file c e :=
  ⟨cd.name.trans de.name, cd.bases.trans de.bases, cd.state.trans de.state,
    cd.returns.trans de.returns⟩

theorem functions_contractDef (s : Surroundings) (c : Contract α) :
    (s.contractDef c).functions = c.functions.map s.function := by
  simp only [Contract.functions, Surroundings.contractDef, List.filterMap_map, List.map_filterMap]
  refine List.filterMap_congr fun m _ => ?_
  cases m <;> rfl

theorem sameDeclarations_contractDef (s : Surroundings) (file : FileScope) (c : Contract α) :
    SameDeclarations file c (s.contractDef c) := by
  refine ⟨rfl, by simp [Surroundings.contractDef, Surroundings.base], ?_, ?_⟩
  · simp only [stateTypes, Surroundings.contractDef, List.filterMap_map]
    refine List.filterMap_congr fun m _ => ?_
    cases m <;> rfl
  · simp only [returnTypes, functions_contractDef, List.filterMap_map]
    rfl

theorem sameDeclarations_mapRoots (f : Expr α → Expr β) (file : FileScope)
    (c : Contract α) : SameDeclarations file c (c.mapRoots f) := by
  refine ⟨rfl, by simp [Contract.mapRoots, Base.mapRoots], ?_, ?_⟩
  · simp only [stateTypes, Contract.mapRoots, List.filterMap_map]
    refine List.filterMap_congr fun m _ => ?_
    cases m <;> rfl
  · simp only [returnTypes, Contract.functions_mapRoots, List.filterMap_map]
    rfl

variable {cs : List (Contract α)} {ds : List (Contract β)}

theorem find_same (h : Forall₂ (SameDeclarations file) cs ds) (name : String) :
    Option.Rel (SameDeclarations file) (cs.find? fun c => c.name.text == name)
      (ds.find? fun d => d.name.text == name) := by
  induction h with
  | nil => exact .none
  | cons same _ ih =>
      simp only [List.find?_cons, same.name]
      split
      · exact .some same
      · exact ih

theorem definition_same (h : Forall₂ (SameDeclarations file) cs ds) (name : String) :
    Option.Rel (SameDeclarations file) (definition? cs name) (definition? ds name) :=
  find_same (List.rel_reverse h) name

theorem baseDefinitions_same (h : Forall₂ (SameDeclarations file) cs ds) {c : Contract α}
    {d : Contract β} (own : SameDeclarations file c d) :
    Forall₂ (SameDeclarations file) (baseDefinitions (definition? cs) c)
      (baseDefinitions (definition? ds) d) := by
  have byName : ∀ {γ : Type} (define : String → Option (Contract γ)) (c : Contract γ),
      baseDefinitions define c = (c.bases.map (·.name.text)).filterMap define := by
    intro γ define c
    simp [baseDefinitions, List.filterMap_map]
  rw [byName, byName, own.bases]
  refine List.rel_filterMap (R := Eq) (fun name _ same => same ▸ definition_same h name) ?_
  exact List.forall₂_same.2 fun _ _ => rfl

theorem dropWhile_same (unmet : List String) (h : Forall₂ (SameDeclarations file) cs ds) :
    Forall₂ (SameDeclarations file) (cs.dropWhile fun c => c.name.text ∉ unmet)
      (ds.dropWhile fun d => d.name.text ∉ unmet) := by
  induction h with
  | nil => exact .nil
  | cons same rest ih =>
      simp only [List.dropWhile_cons, same.name]
      split
      · exact ih
      · exact .cons same rest

theorem lineage_same (h : Forall₂ (SameDeclarations file) cs ds) (limit : Nat)
    (unmet : List String) {pending : List (Contract α)} {pending' : List (Contract β)}
    (same : Forall₂ (SameDeclarations file) pending pending') :
    Forall₂ (SameDeclarations file) (lineage (definition? cs) limit unmet pending)
      (lineage (definition? ds) limit unmet pending') := by
  induction limit generalizing unmet pending pending' with
  | zero => exact .nil
  | succ limit ih =>
      simp only [lineage]
      have met := dropWhile_same unmet same
      revert met
      generalize pending.dropWhile (fun c => c.name.text ∉ unmet) = line
      generalize pending'.dropWhile (fun d => d.name.text ∉ unmet) = line'
      intro met
      cases met with
      | nil => exact .nil
      | cons own rest =>
          simp only [own.name]
          exact .cons own (ih _ (List.rel_append (baseDefinitions_same h own) rest))

theorem flatMap_same {γ : Type} {f : Contract α → List γ} {g : Contract β → List γ}
    (agree : ∀ c d, SameDeclarations file c d → f c = g d)
    (h : Forall₂ (SameDeclarations file) cs ds) : cs.flatMap f = ds.flatMap g := by
  induction h with
  | nil => rfl
  | cons same _ ih => simp [agree _ _ same, ih]

/-- What a contract sees of itself and of its bases depends on declarations
alone. -/
theorem contractScope_same (h : Forall₂ (SameDeclarations file) cs ds) {c : Contract α}
    {d : Contract β} (own : SameDeclarations file c d) :
    ContractScope.of file cs c = ContractScope.of file ds d := by
  have names : cs.map (·.name.text) = ds.map (·.name.text) := by
    induction h with
    | nil => rfl
    | cons same _ ih => simp [same.name, ih]
  have line : Forall₂ (SameDeclarations file) (ancestry cs c) (ancestry ds d) := by
    simp only [ancestry, names]
    exact lineage_same h _ _ (.cons own .nil)
  simp only [ContractScope.of, own.name, flatMap_same (fun _ _ same => same.state) line,
    flatMap_same (fun _ _ same => same.returns) line]

/-- Where the statements of a contract of a file stand. -/
def surroundings (file : FileScope) (contracts : List (Contract α)) (c : Contract α) :
    Surroundings :=
  ⟨file, .of file contracts c⟩

/-- A contract of a file with its types. -/
def typed (file : FileScope) (contracts : List (Contract α)) (c : Contract α) : Contract Ty :=
  (surroundings file contracts c).contractDef c

theorem contracts_annotate (u : SourceUnit α) :
    u.annotate.contracts = u.contracts.map (typed (FileScope.of u) u.contracts) := by
  simp only [SourceUnit.contracts, SourceUnit.annotate, List.filterMap_map, List.map_filterMap]
  refine List.filterMap_congr fun n _ => ?_
  cases n <;> rfl

end SafeSubset.Typing
