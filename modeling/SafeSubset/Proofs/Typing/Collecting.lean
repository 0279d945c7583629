import SafeSubset.Proofs.Calls.Direct
import SafeSubset.Proofs.Typing.StateVariables

/-! How what a contract sees is collected. Contracts are taken from a list one by one: if the
name is new, the declarations are added behind those that are there, and the bases come before
what is left in the list. However the contracts inherit from one another, the list becomes
empty, and what has been collected then is what can be reached by names of bases. -/
namespace SafeSubset.Typing

variable {α : Type} {file : FileScope} {definition : String → Option (Contract α)}
  {contracts pending : List (Contract α)} {unmet visited : List String} {c d e : Contract α}
  {name : String}

/-- What a base name stands for where collecting starts at `c`, whose own name stands for `c`
itself. -/
def standing (contracts : List (Contract α)) (c : Contract α) (name : String) : Option (Contract α) :=
  if name = c.name.text then some c else definition? contracts name

/-- The state of a collection. -/
structure Collection (α : Type) where
  /-- The names that have been met. -/
  visited : List String
  /-- The contracts that are still to be looked at, the next one first. -/
  pending : List (Contract α)
  scope : ContractScope

/-- Adds what a contract declares. Of two entries with one name the first counts, so what is
there stays as it is. -/
def ContractScope.add (file : FileScope) (scope : ContractScope) (c : Contract α) : ContractScope :=
  { scope with
    state := scope.state ++ stateTypes file c
    returns := scope.returns ++ returnTypes file c }

namespace Collection

def start (c : Contract α) : Collection α := ⟨[], [c], ⟨c.name.text, [], []⟩⟩

/-- One step, if there is something to look at. -/
def next? (file : FileScope) (definition : String → Option (Contract α)) (s : Collection α) :
    Option (Collection α) :=
  match s.pending with
  | [] => none
  | c :: rest =>
      if c.name.text ∈ s.visited then some { s with pending := rest }
      else some ⟨c.name.text :: s.visited, baseDefinitions definition c ++ rest, s.scope.add file c⟩

/-- The state after some steps. -/
def after? (file : FileScope) (definition : String → Option (Contract α)) :
    Nat → Collection α → Option (Collection α)
  | 0, s => some s
  | n + 1, s => (s.next? file definition).bind (after? file definition n)

end Collection

section Walk

/-- The number of contracts that are pending at some time of a walk. -/
def pendingCount (definition : String → Option (Contract α)) (pending line : List (Contract α)) : Nat :=
  pending.length + (line.flatMap (baseDefinitions definition)).length

/-- Collecting meets what is met, and takes as many steps as contracts are pending. -/
theorem after_meets {line : List (Contract α)} (meets : Meets contracts visited pending line)
    (file : FileScope) (scope : ContractScope) (once : visited.Nodup) :
    ∃ names, Collection.after? file (definition? contracts)
        (pendingCount (definition? contracts) pending line) ⟨visited, pending, scope⟩ =
          some ⟨names, [], line.foldl (ContractScope.add file) scope⟩ ∧
      names.Nodup ∧ ∀ name, name ∈ names ↔ name ∈ visited ∨ ∃ d ∈ line, d.name.text = name := by
  induction meets generalizing scope with
  | @done visited => exact ⟨visited, rfl, once, by simp⟩
  | @again visited c pending line old _ ih =>
      obtain ⟨names, steps, result⟩ := ih scope once
      refine ⟨names, ?_, result⟩
      rw [pendingCount, List.length_cons, Nat.add_right_comm, Collection.after?, Collection.next?]
      simp only [old, if_true, Option.bind_some]
      exact steps
  | @first visited c pending line new _ ih =>
      obtain ⟨names, steps, once', met⟩ := ih (scope.add file c) (once.cons new)
      refine ⟨names, ?_, once', fun name => ?_⟩
      · have count : pendingCount (definition? contracts) (c :: pending) (c :: line) =
            pendingCount (definition? contracts) (c.basesIn contracts ++ pending) line + 1 := by
          simp only [pendingCount, bases_eq, List.length_cons, List.flatMap_cons, List.length_append]
          omega
        rw [count, Collection.after?, Collection.next?]
        simp only [new, if_false, Option.bind_some, List.foldl_cons, bases_eq]
        exact steps
      · rw [met, List.mem_cons, List.exists_mem_cons_iff, eq_comm (a := name), or_assoc,
          or_left_comm]

theorem foldl_add (line : List (Contract α)) (scope : ContractScope) :
    line.foldl (ContractScope.add file) scope =
      ⟨scope.name, scope.state ++ line.flatMap (stateTypes file),
        scope.returns ++ line.flatMap (returnTypes file)⟩ := by
  induction line generalizing scope with
  | nil => simp
  | cons c line ih => simp [ih, ContractScope.add]

end Walk

section Reach

theorem name_of_definition (found : definition? contracts name = some d) : d.name.text = name := by
  simpa using List.find?_some found

theorem definition_of_base (base : d ∈ baseDefinitions (definition? contracts) c) :
    definition? contracts d.name.text = some d := by
  obtain ⟨spec, -, found⟩ := List.mem_filterMap.1 base
  rwa [name_of_definition found]

/-- A base of another name stands for what it stands for in the file. -/
theorem extends_standing (base : d ∈ baseDefinitions (definition? contracts) e)
    (other : d.name.text ≠ c.name.text) : Extends (standing contracts c) e d := by
  obtain ⟨spec, listed, found⟩ := List.mem_filterMap.1 base
  rw [name_of_definition found] at other
  exact List.mem_filterMap.2 ⟨spec, listed, by rwa [standing, if_neg other]⟩

/-- Each contract of a walk is the one that its name stands for, if those that it starts with
are. -/
theorem definition_of_walk (unmet : List String) (pending : List (Contract α))
    (stand : ∀ p ∈ pending, definition? contracts p.name.text = some p) :
    ∀ d ∈ walk (definition? contracts) unmet pending, definition? contracts d.name.text = some d := by
  induction unmet, pending using walk_induction (definition? contracts) with
  | nil unmet => simp [walk_nil]
  | met unmet c pending old ih =>
      rw [walk_met old]
      exact ih (List.forall_mem_cons.1 stand).2
  | new unmet c pending known ih =>
      obtain ⟨first, others⟩ := List.forall_mem_cons.1 stand
      rw [walk_unmet known]
      exact List.forall_mem_cons.2
        ⟨first, ih (List.forall_mem_append.2 ⟨fun _ => definition_of_base, others⟩)⟩

/-- A walk on which `c` has been met stays within what can be reached from `c`. -/
theorem leads_of_walk (unmet : List String) (pending : List (Contract α)) (met : c.name.text ∉ unmet)
    (reached : ∀ p ∈ pending, p.name.text ∈ unmet → Leads (standing contracts c) c p) :
    ∀ d ∈ walk (definition? contracts) unmet pending, Leads (standing contracts c) c d := by
  induction unmet, pending using walk_induction (definition? contracts) with
  | nil unmet => simp [walk_nil]
  | met unmet e pending old ih =>
      rw [walk_met old]
      exact ih met (List.forall_mem_cons.1 reached).2
  | new unmet e pending known ih =>
      obtain ⟨first, others⟩ := List.forall_mem_cons.1 reached
      have here := first known
      rw [walk_unmet known]
      refine List.forall_mem_cons.2 ⟨here, ih (fun own => met (mem_without.1 own).1) ?_⟩
      refine List.forall_mem_append.2 ⟨?_, fun p inside left => others p inside (mem_without.1 left).1⟩
      intro b base left
      exact here.tail (extends_standing base fun same => met (same ▸ (mem_without.1 left).1))

/-- A walk meets every name that is pending or is a base of what it meets, unless the name has
been met before. -/
theorem closed_walk (unmet : List String) (pending : List (Contract α)) (e : Contract α)
    (source : e ∈ pending ∨ ∃ d ∈ walk definition unmet pending, e ∈ baseDefinitions definition d)
    (new : e.name.text ∈ unmet) : ∃ d ∈ walk definition unmet pending, d.name.text = e.name.text := by
  induction unmet, pending using walk_induction definition with
  | nil unmet => simp [walk_nil] at source
  | met unmet c pending old ih =>
      simp only [walk_met old] at source ⊢
      refine ih (source.imp_left fun inside => ?_) new
      rcases List.mem_cons.1 inside with rfl | inside
      · exact absurd new old
      · exact inside
  | new unmet c pending known ih =>
      simp only [walk_unmet known, List.exists_mem_cons_iff] at source ⊢
      by_cases own : e.name.text = c.name.text
      · exact .inl own.symm
      · refine .inr (ih ?_ (mem_without.2 ⟨new, own⟩))
        rw [List.mem_append]
        rcases source with inside | base | deep
        · rcases List.mem_cons.1 inside with rfl | inside
          · exact absurd rfl own
          · exact .inl (.inr inside)
        · exact .inl (.inl base)
        · exact .inr deep

/-- The contracts that are met behind `c`, which is met first. -/
theorem ancestry_eq_walk (member : c ∈ contracts) : ancestry contracts c =
    c :: walk (definition? contracts) (without c.name.text (contracts.map (·.name.text)))
      (baseDefinitions (definition? contracts) c) := by
  have line : ancestry contracts c = c :: walk (definition? contracts)
      (without c.name.text (contracts.map (·.name.text)))
      (baseDefinitions (definition? contracts) c ++ []) := walk_unmet (List.mem_map_of_mem member)
  rw [line, List.append_nil]

theorem leads_of_ancestry (member : c ∈ contracts) (inside : d ∈ ancestry contracts c) :
    Leads (standing contracts c) c d := by
  rw [ancestry_eq_walk member] at inside
  rcases List.mem_cons.1 inside with rfl | inside
  · exact .refl
  · have gone : c.name.text ∉ without c.name.text (contracts.map (·.name.text)) := by simp [without]
    refine leads_of_walk _ _ gone (fun b base left => ?_) d inside
    exact .single (extends_standing base (mem_without.1 left).2)

/-- With a contract, those that the names of its bases stand for are met too. -/
theorem ancestry_closed (member : c ∈ contracts) (inside : e ∈ ancestry contracts c)
    (base : Extends (standing contracts c) e d) : d ∈ ancestry contracts c := by
  rw [ancestry_eq_walk member] at inside ⊢
  obtain ⟨spec, listed, found⟩ := List.mem_filterMap.1 base
  by_cases own : spec.name.text = c.name.text
  · rw [standing, if_pos own] at found
    exact Option.some.inj found ▸ List.mem_cons_self
  rw [standing, if_neg own] at found
  have name := name_of_definition found
  have base' : d ∈ baseDefinitions (definition? contracts) e :=
    List.mem_filterMap.2 ⟨spec, listed, found⟩
  have left : d.name.text ∈ without c.name.text (contracts.map (·.name.text)) :=
    mem_without.2 ⟨List.mem_map_of_mem (mem_of_extends base'), name ▸ own⟩
  have source : d ∈ baseDefinitions (definition? contracts) c ∨
      ∃ f ∈ walk (definition? contracts) (without c.name.text (contracts.map (·.name.text)))
        (baseDefinitions (definition? contracts) c), d ∈ baseDefinitions (definition? contracts) f := by
    rcases List.mem_cons.1 inside with rfl | inside
    · exact .inl base'
    · exact .inr ⟨e, inside, base'⟩
  obtain ⟨d', inside', same⟩ := closed_walk _ _ d source left
  -- the walk meets a contract of the name, which is the one that the name stands for
  have stands := definition_of_walk _ _ (fun _ => definition_of_base) d' inside'
  rw [same, name] at stands
  obtain rfl := Option.some.inj (stands.symm.trans found)
  exact List.mem_cons_of_mem c inside'

/-- The contracts that are met are those that can be reached by names of bases. -/
theorem mem_ancestry_iff (member : c ∈ contracts) :
    d ∈ ancestry contracts c ↔ Leads (standing contracts c) c d := by
  refine ⟨leads_of_ancestry member, fun leads => ?_⟩
  induction leads with
  | refl => exact ancestry_eq_walk member ▸ List.mem_cons_self
  | tail _ base ih => exact ancestry_closed member ih base

end Reach

section Declared

/-- The contract declares a state variable of that name. -/
def DeclaresState (d : Contract α) (name : String) : Prop :=
  ∃ v, .state v ∈ d.members ∧ v.name.text = name

/-- The contract declares a function of that name. -/
def DeclaresFunction (d : Contract α) (name : String) : Prop := ∃ f ∈ d.functions, f.Named name

theorem mem_stateTypes : name ∈ (stateTypes file d).map Prod.fst ↔ DeclaresState d name := by
  simp only [stateTypes, List.mem_map, List.mem_filterMap, DeclaresState]
  constructor
  · rintro ⟨_, ⟨m, member, entry⟩, rfl⟩
    cases m with
    | state v =>
        obtain rfl := Option.some.inj entry
        exact ⟨v, member, rfl⟩
    | _ => cases entry
  · rintro ⟨v, member, rfl⟩
    exact ⟨_, ⟨.state v, member, rfl⟩, rfl⟩

theorem ident_of_named {f : FunctionDef α} :
    f.Named name ↔ f.name.ident?.map Ident.text = some name := by
  unfold FunctionDef.Named
  cases f.name <;> simp [FunctionName.ident?]

theorem mem_returnTypes : name ∈ (returnTypes file d).map Prod.fst ↔ DeclaresFunction d name := by
  simp only [returnTypes, List.mem_map, List.mem_filterMap, DeclaresFunction, ident_of_named,
    Option.map_eq_some_iff]
  constructor
  · rintro ⟨_, ⟨f, member, i, ident, rfl⟩, rfl⟩
    exact ⟨f, member, i, ident, rfl⟩
  · rintro ⟨f, member, i, ident, rfl⟩
    exact ⟨_, ⟨f, member, i, ident, rfl⟩, rfl⟩

/-- What a contract sees under the name of one of its own functions is the first of them. -/
theorem lookup_returns (member : c ∈ contracts) {f : FunctionDef α} (first : c.FirstNamed name f) :
    (ContractScope.of file contracts c).returns.lookup name = some (returnType file f) := by
  obtain ⟨named, before, behind, split, earlier⟩ := first
  obtain ⟨i, ident, rfl⟩ := named
  have none : (before.filterMap fun f =>
      f.name.ident?.map fun name => (name.text, returnType file f)).lookup i.text = none := by
    rw [List.lookup_eq_none_iff]
    intro entry inside
    obtain ⟨g, there, found⟩ := List.mem_filterMap.1 inside
    obtain ⟨j, ident', rfl⟩ := Option.map_eq_some_iff.1 found
    have other := earlier g there
    rw [ident_of_named, ident', Option.map_some, Option.some.injEq] at other
    exact bne_iff_ne.2 (Ne.symm other)
  have own : (returnTypes file c).lookup i.text = some (returnType file f) := by
    rw [returnTypes, split, List.filterMap_append, List.lookup_append, none, Option.none_or]
    simp [ident, FunctionName.ident?]
  obtain ⟨bases, line⟩ := ancestry_eq_cons member
  simp only [ContractScope.of, line, List.flatMap_cons, List.lookup_append, own, Option.some_or]

end Declared

section Main

/-- Collecting what a contract of a file sees comes to an end, after as many steps as contracts
are pending at some time, and each name is met once. The names of the variables and functions
that are seen are those that the contract declares, or one that can be reached from it by names
of bases; what it declares itself has the type of its first declaration of the name. -/
theorem collects_reachable (u : SourceUnit α) (member : c ∈ u.contracts) :
    let file := FileScope.of u
    let scope := ContractScope.of file u.contracts c
    let Sees := Leads (standing u.contracts c) c
    (∃ names, Collection.after? file (definition? u.contracts)
        (pendingCount (definition? u.contracts) [c] (ancestry u.contracts c)) (.start c) =
          some ⟨names, [], scope⟩ ∧
      names.Nodup ∧ ∀ name, name ∈ names ↔ ∃ d, Sees d ∧ d.name.text = name) ∧
    (∀ name, name ∈ scope.state.map Prod.fst ↔ ∃ d, Sees d ∧ DeclaresState d name) ∧
    (∀ name, name ∈ scope.returns.map Prod.fst ↔ ∃ d, Sees d ∧ DeclaresFunction d name) ∧
    (∀ name v, c.declared? name = some v →
      scope.state.lookup name = some (file.resolve v.type)) ∧
    ∀ name f, c.FirstNamed name f → scope.returns.lookup name = some (returnType file f) := by
  intro file scope Sees
  have sees : ∀ d, d ∈ ancestry u.contracts c ↔ Sees d := fun d => mem_ancestry_iff member
  refine ⟨?_, ?_, ?_, ?_, fun name f => lookup_returns member⟩
  · obtain ⟨names, steps, once, met⟩ :=
      after_meets (meets_ancestry member) file ⟨c.name.text, [], []⟩ .nil
    rw [foldl_add] at steps
    refine ⟨names, steps, once, fun name => ?_⟩
    rw [met]
    simp only [List.not_mem_nil, false_or, sees]
  · intro name
    show name ∈ ((ancestry u.contracts c).flatMap (stateTypes file)).map Prod.fst ↔ _
    rw [List.map_flatMap, List.mem_flatMap]
    exact exists_congr fun d => and_congr (sees d) mem_stateTypes
  · intro name
    show name ∈ ((ancestry u.contracts c).flatMap (returnTypes file)).map Prod.fst ↔ _
    rw [List.map_flatMap, List.mem_flatMap]
    exact exists_congr fun d => and_congr (sees d) mem_returnTypes
  · intro name v first
    apply lookup_state member
    rw [lookup_stateTypes, first, Option.map_some]

/-- A contract that names itself, a contract that is not there, and one that names it again,
with a second contract of its name behind. -/
def cyclicSource : Source :=
  ("contract A is B, X, A \x7b uint8 x; uint x; \x7d contract B is A, B, B \x7b bool y; \x7d " ++
    "contract A is B \x7b bool z; \x7d").toList

theorem collects_reachable_cyclic : ∃ u c, cyclicSource.front = .ok u ∧ c ∈ u.contracts ∧
    (∃ names s, Collection.after? (FileScope.of u) (definition? u.contracts) 6 (.start c) =
      some ⟨names, [], s⟩ ∧ names.Nodup ∧ s.state.lookup "x" = some (.integer (.unsigned 8))) ∧
    (∃ d, Leads (standing u.contracts c) c d ∧ DeclaresState d "y") ∧
    ¬ ∃ d, Leads (standing u.contracts c) c d ∧ DeclaresState d "z" := by
  have evaluated : cyclicSource.front.toOption.any (fun u => u.contracts.any fun c =>
      (ContractScope.of (FileScope.of u) u.contracts c).state.map Prod.fst == ["x", "x", "y"] &&
        pendingCount (definition? u.contracts) [c] (ancestry u.contracts c) == 6 &&
        (c.declared? "x").any fun v =>
          (FileScope.of u).resolve v.type = .integer (.unsigned 8)) = true := by
    decide +kernel
  obtain ⟨u, accepted, found⟩ := exists_of_any evaluated
  obtain ⟨c, member, values⟩ := List.any_eq_true.1 found
  simp only [Bool.and_eq_true, beq_iff_eq] at values
  obtain ⟨⟨keys, count⟩, own⟩ := values
  obtain ⟨v, first, type⟩ := (Option.any_eq_true _ _).1 own
  obtain ⟨⟨names, steps, once, -⟩, state, -, declared, -⟩ := collects_reachable u member
  rw [count] at steps
  refine ⟨u, c, accepted, member, ⟨names, _, steps, once, ?_⟩, (state "y").1 ?_, ?_⟩
  · rw [declared "x" v first, of_decide_eq_true type]
  · simp [keys]
  · rw [← state "z", keys]
    decide

end Main

end SafeSubset.Typing
