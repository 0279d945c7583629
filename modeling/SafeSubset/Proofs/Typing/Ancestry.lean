import Mathlib.Data.Fintype.Card
import Mathlib.Data.List.Find
import Mathlib.Data.List.Nodup
import Mathlib.Data.Set.Finite.Basic
import Mathlib.Logic.Relation
import Mathlib.Order.WellFounded
import SafeSubset.Proofs.Grammar.File

/-! The contracts that a contract inherits from, in the order in which they are met. Bases
are followed depth first and no contract is met twice; what counts of a name is the first
declaration that is met. -/
namespace SafeSubset.Typing

open Relation (ReflTransGen TransGen)

variable {α : Type} {definition : String → Option (Contract α)} {unmet : List String}
  {c d e : Contract α} {cs line rest pending : List (Contract α)}

/-- The second contract stands for a base of the first. -/
def Extends (definition : String → Option (Contract α)) (c b : Contract α) : Prop :=
  b ∈ baseDefinitions definition c

/-- The second contract is the first one, or one that it inherits from. -/
abbrev Leads (definition : String → Option (Contract α)) : Contract α → Contract α → Prop :=
  ReflTransGen (Extends definition)

/-- The first contract inherits from the second. -/
abbrev Inherits (definition : String → Option (Contract α)) : Contract α → Contract α → Prop :=
  TransGen (Extends definition)

theorem leads_iff : Leads definition c d ↔
    d = c ∨ ∃ b ∈ baseDefinitions definition c, Leads definition b d := by
  rw [Leads, ReflTransGen.cases_head_iff, eq_comm]
  rfl

section Walk

theorem mem_without {name other : String} : name ∈ without other unmet ↔ name ∈ unmet ∧ name ≠ other := by
  simp [without]

theorem length_without_lt {name : String} (member : name ∈ unmet) :
    (without name unmet).length < unmet.length :=
  List.length_filter_lt_length_iff_exists.2 ⟨name, member, by simp⟩

theorem lineage_nil (limit : Nat) : lineage definition limit [] pending = [] := by
  cases limit with
  | zero => rfl
  | succ limit =>
      have all : pending.dropWhile (fun c => c.name.text ∉ ([] : List String)) = [] := by
        induction pending with
        | nil => rfl
        | cons c pending ih => rwa [List.dropWhile_cons_of_pos (by simp)]
      rw [lineage, all]

/-- A limit that is no less than the number of names is none. -/
theorem lineage_limit {limit limit' : Nat} (enough : unmet.length ≤ limit)
    (enough' : unmet.length ≤ limit') (pending : List (Contract α)) :
    lineage definition limit unmet pending = lineage definition limit' unmet pending := by
  induction limit generalizing limit' unmet pending with
  | zero =>
      obtain rfl := List.length_eq_zero_iff.1 (Nat.le_zero.1 enough)
      rw [lineage_nil, lineage_nil]
  | succ limit ih =>
      cases limit' with
      | zero =>
          obtain rfl := List.length_eq_zero_iff.1 (Nat.le_zero.1 enough')
          rw [lineage_nil, lineage_nil]
      | succ limit' =>
          rw [lineage, lineage]
          cases met : pending.dropWhile fun c => c.name.text ∉ unmet with
          | nil => rfl
          | cons c rest =>
              have known : c.name.text ∈ unmet := by
                have head := List.head_dropWhile_not (l := pending)
                  (fun c => decide (c.name.text ∉ unmet)) (by rw [met]; exact List.cons_ne_nil c rest)
                simpa only [met, List.head_cons, decide_eq_false_iff_not, not_not] using head
              have fewer := length_without_lt known
              have less : (without c.name.text unmet).length ≤ limit := by omega
              have less' : (without c.name.text unmet).length ≤ limit' := by omega
              simp only [ih less less']

/-- The contracts met from `pending` on by following bases, as many as there are. -/
def walk (definition : String → Option (Contract α)) (unmet : List String)
    (pending : List (Contract α)) : List (Contract α) :=
  lineage definition unmet.length unmet pending

theorem walk_nil : walk definition unmet [] = [] := by
  unfold walk
  cases unmet.length <;> rfl

/-- A contract met before is passed over. -/
theorem walk_met (met : c.name.text ∉ unmet) :
    walk definition unmet (c :: pending) = walk definition unmet pending := by
  unfold walk
  cases unmet.length with
  | zero => rfl
  | succ limit =>
      have passed : (c :: pending).dropWhile (fun c => c.name.text ∉ unmet) =
          pending.dropWhile fun c => c.name.text ∉ unmet := List.dropWhile_cons_of_pos (by simpa using met)
      rw [lineage, lineage, passed]

/-- A contract that has not been met is met before its bases. -/
theorem walk_unmet (new : c.name.text ∈ unmet) : walk definition unmet (c :: pending) =
    c :: walk definition (without c.name.text unmet) (baseDefinitions definition c ++ pending) := by
  obtain ⟨limit, length⟩ := Nat.exists_eq_succ_of_ne_zero (List.length_pos_of_mem new).ne'
  have first : (c :: pending).dropWhile (fun c => c.name.text ∉ unmet) = c :: pending :=
    List.dropWhile_cons_of_neg (by simpa using new)
  have fewer := length_without_lt new
  unfold walk
  rw [length, lineage, first]
  simp only
  rw [lineage_limit (by omega) (Nat.le_refl _)]

/-- A walk looks at one contract at a time, and has fewer names left when the name is new. -/
theorem walk_induction (definition : String → Option (Contract α))
    {P : List String → List (Contract α) → Prop} (nil : ∀ unmet, P unmet [])
    (met : ∀ unmet c pending, c.name.text ∉ unmet → P unmet pending → P unmet (c :: pending))
    (new : ∀ unmet c pending, c.name.text ∈ unmet →
      P (without c.name.text unmet) (baseDefinitions definition c ++ pending) → P unmet (c :: pending))
    (unmet : List String) (pending : List (Contract α)) : P unmet pending := by
  induction h : unmet.length using Nat.strong_induction_on generalizing unmet pending with
  | _ n fewer =>
      induction pending with
      | nil => exact nil unmet
      | cons c pending shorter =>
          by_cases known : c.name.text ∈ unmet
          · exact new unmet c pending known
              (fewer _ (h ▸ length_without_lt known) _ _ rfl)
          · exact met unmet c pending known shorter

/-- A contract of the file comes first among those that it inherits from. -/
theorem ancestry_eq_cons {contracts : List (Contract α)} (member : c ∈ contracts) :
    ∃ bases, ancestry contracts c = c :: bases := by
  have known : c.name.text ∈ contracts.map (·.name.text) := List.mem_map_of_mem member
  have line : walk (definition? contracts) (contracts.map (·.name.text)) [c] = c :: _ := walk_unmet known
  exact ⟨_, line⟩

end Walk

/-- The contracts below some contracts, depth first and as often as they occur. -/
inductive Unfolding (definition : String → Option (Contract α)) :
    List (Contract α) → List (Contract α) → Prop where
  | nil : Unfolding definition [] []
  | cons {c : Contract α} {cs below rest : List (Contract α)}
      (inner : Unfolding definition (baseDefinitions definition c) below)
      (others : Unfolding definition cs rest) :
      Unfolding definition (c :: cs) (c :: below ++ rest)

/-- Of two in a row the first leads to `e` and not to `d`, and the second to `d`. -/
def Parts (definition : String → Option (Contract α)) (e d : Contract α) (cs : List (Contract α)) :
    Prop :=
  ∃ x y, [x, y].Sublist cs ∧ Leads definition x e ∧ ¬ Leads definition x d ∧ Leads definition y d

theorem Parts.cons (parts : Parts definition e d cs) : Parts definition e d (c :: cs) := by
  obtain ⟨x, y, row, leads⟩ := parts
  exact ⟨x, y, row.cons c, leads⟩

namespace Unfolding

/-- What is unfolded are the contracts that the given ones lead to. -/
theorem mem_iff (h : Unfolding definition cs line) :
    d ∈ line ↔ ∃ c ∈ cs, Leads definition c d := by
  induction h with
  | nil => simp
  | @cons c cs below rest inner others ih ih' =>
      rw [List.mem_append, List.mem_cons, ih, ih']
      simp only [List.mem_cons, exists_eq_or_imp]
      rw [leads_iff]

/-- What a contract leads to is itself and what its bases unfold to. -/
theorem mem_cons_iff (inner : Unfolding definition (baseDefinitions definition c) line) :
    d ∈ c :: line ↔ Leads definition c d := by
  rw [List.mem_cons, leads_iff, inner.mem_iff]

/-- Where `e` comes before every occurrence of `d` and does not lead to it, some contract
has a base that leads to `e` alone before one that leads to `d`. -/
theorem parts (h : Unfolding definition cs line) {before after : List (Contract α)}
    (split : line = before ++ e :: after) (first : d ∉ before) (member : d ∈ line)
    (apart : ¬ Leads definition e d) :
    (∃ f ∈ line, Parts definition e d (baseDefinitions definition f)) ∨ Parts definition e d cs := by
  induction h generalizing before after with
  | nil => cases member
  | @cons c cs below rest inner others ih ih' =>
      -- The first of some contracts leads to `e` and not to `d`, and another one to `d`.
      have beside : Leads definition c e → ¬ Leads definition c d → Parts definition e d (c :: cs) := by
        intro leads off
        obtain ⟨y, inside, leads'⟩ := (Unfolding.cons inner others).mem_iff.1 member
        rcases List.mem_cons.1 inside with rfl | inside
        · exact absurd leads' off
        · exact ⟨c, y, (List.singleton_sublist.2 inside).cons_cons c, leads, off, leads'⟩
      cases before with
      | nil =>
          obtain ⟨rfl, -⟩ := List.cons.inj split
          exact .inr (beside .refl apart)
      | cons b before =>
          obtain ⟨rfl, tail⟩ := List.cons.inj split
          obtain ⟨other, earlier⟩ := not_or.1 (mt List.mem_cons.2 first)
          have off : d ∉ below → ¬ Leads definition c d := by
            intro outside leads
            exact (leads_iff.1 leads).elim other fun inside => outside (inner.mem_iff.2 inside)
          have behind : ∀ more, rest = more ++ e :: after → d ∉ below → d ∉ more →
              (∃ f ∈ c :: below ++ rest, Parts definition e d (baseDefinitions definition f)) ∨
                Parts definition e d (c :: cs) := by
            intro more tail outside earlier
            have later : d ∈ rest := (List.mem_append.1 member).resolve_left
              (mt List.mem_cons.1 (not_or.2 ⟨other, outside⟩))
            refine (ih' tail earlier later).imp ?_ Parts.cons
            rintro ⟨f, inside, parts⟩
            exact ⟨f, List.mem_append.2 (.inr inside), parts⟩
          rcases List.append_eq_append_iff.1 tail with ⟨more, rfl, tail'⟩ | ⟨more, inner', tail'⟩
          · obtain ⟨outside, earlier⟩ := not_or.1 (mt List.mem_append.2 earlier)
            exact behind more tail' outside earlier
          · cases more with
            | nil =>
                rw [List.append_nil] at inner'
                exact behind [] tail'.symm (inner' ▸ earlier) List.not_mem_nil
            | cons e' more =>
                obtain ⟨rfl, -⟩ := List.cons.inj tail'
                have within : e ∈ below := inner' ▸ List.mem_append.2 (.inr List.mem_cons_self)
                by_cases deep : d ∈ below
                · rcases ih inner' earlier deep with ⟨f, inside, parts⟩ | parts
                  · exact .inl ⟨f, List.mem_append.2 (.inl (List.mem_cons_of_mem c inside)), parts⟩
                  · exact .inl ⟨c, List.mem_append.2 (.inl List.mem_cons_self), parts⟩
                · exact .inr (beside (leads_iff.2 (.inr (inner.mem_iff.1 within))) (off deep))

/-- Some contracts can be unfolded together if each of them can. -/
theorem exists_all (each : ∀ c ∈ cs, ∃ line, Unfolding definition (baseDefinitions definition c) line) :
    ∃ line, Unfolding definition cs line := by
  induction cs with
  | nil => exact ⟨[], .nil⟩
  | cons c cs ih =>
      obtain ⟨below, inner⟩ := each c List.mem_cons_self
      obtain ⟨rest, others⟩ := ih fun d member => each d (List.mem_cons_of_mem c member)
      exact ⟨_, .cons inner others⟩

end Unfolding

section File

variable {contracts : List (Contract α)}

/-- Contracts of one file, with names of their own, of which none inherits from itself. -/
structure Hierarchy (contracts : List (Contract α)) : Prop where
  distinct : (contracts.map (·.name.text)).Nodup
  acyclic : ∀ c ∈ contracts, ¬ Inherits (definition? contracts) c c

theorem mem_of_extends {b : Contract α} (h : Extends (definition? contracts) c b) : b ∈ contracts := by
  obtain ⟨base, -, found⟩ := List.mem_filterMap.1 h
  exact List.mem_reverse.1 (List.mem_of_find?_eq_some found)

theorem mem_of_leads (member : c ∈ contracts) (leads : Leads (definition? contracts) c d) :
    d ∈ contracts := by
  cases leads with
  | refl => exact member
  | tail _ last => exact mem_of_extends last

namespace Hierarchy

variable (hierarchy : Hierarchy contracts)

include hierarchy

theorem eq_of_name (hc : c ∈ contracts) (hd : d ∈ contracts) (same : c.name.text = d.name.text) :
    c = d :=
  List.inj_on_of_nodup_map hierarchy.distinct hc hd same

/-- What a contract inherits from does not lead back to it. -/
theorem not_leads (member : c ∈ contracts) (inherits : Inherits (definition? contracts) c d) :
    ¬ Leads (definition? contracts) d c := fun back =>
  hierarchy.acyclic c member (Relation.TransGen.trans_left inherits back)

/-- As there are finitely many contracts, following bases comes to an end. -/
theorem wellFounded : WellFounded fun b c : { c // c ∈ contracts } =>
    Inherits (definition? contracts) c.1 b.1 := by
  have finite : Finite { c // c ∈ contracts } := (List.finite_toSet contracts).to_subtype
  have transitive : IsTrans { c // c ∈ contracts } fun b c =>
      Inherits (definition? contracts) c.1 b.1 := ⟨fun _ _ _ first second => second.trans first⟩
  have irreflexive : Std.Irrefl fun b c : { c // c ∈ contracts } =>
      Inherits (definition? contracts) c.1 b.1 := ⟨fun c => hierarchy.acyclic c.1 c.2⟩
  exact Finite.wellFounded_of_trans_of_irrefl _

theorem exists_unfolding (within : ∀ c ∈ cs, c ∈ contracts) :
    ∃ line, Unfolding (definition? contracts) cs line := by
  have below : ∀ c : { c // c ∈ contracts },
      ∃ line, Unfolding (definition? contracts) (baseDefinitions (definition? contracts) c.1) line := by
    intro c
    induction c using hierarchy.wellFounded.induction with
    | _ c ih =>
        apply Unfolding.exists_all
        intro b base
        exact ih ⟨b, mem_of_extends base⟩ (.single base)
  exact Unfolding.exists_all fun c member => below ⟨c, within c member⟩

end Hierarchy

/-- The names that are left when some contracts have been met. -/
def left (unmet : List String) (line : List (Contract α)) : List String :=
  unmet.filter fun name => name ∉ line.map (·.name.text)

/-- A name is gone that was gone before or belongs to what has been met since. -/
theorem not_mem_left {name : String} : name ∉ left (without c.name.text unmet) line ↔
    name ∉ unmet ∨ ∃ d ∈ c :: line, d.name.text = name := by
  simp only [left, List.mem_filter, mem_without, List.mem_map, decide_eq_true_eq, List.mem_cons,
    exists_eq_or_imp]
  rw [eq_comm (a := c.name.text), not_and_or, not_and_or, ne_eq, not_not, not_not, or_assoc]

theorem left_cons_append :
    left unmet (c :: line ++ rest) = left (left (without c.name.text unmet) line) rest := by
  unfold left without
  rw [List.filter_filter, List.filter_filter]
  refine List.filter_congr fun name _ => ?_
  rw [Bool.eq_iff_iff]
  simp only [List.map_append, List.map_cons, List.cons_append, List.mem_cons, List.mem_append,
    Bool.and_eq_true, decide_eq_true_eq, not_or]
  constructor
  · rintro ⟨own, inside, behind⟩
    exact ⟨⟨behind, inside⟩, own⟩
  · rintro ⟨⟨behind, inside⟩, own⟩
    exact ⟨own, inside, behind⟩

theorem left_of_met (met : ∀ c ∈ line, c.name.text ∉ unmet) :
    left unmet (line ++ rest) = left unmet rest := by
  refine List.filter_congr fun name known => ?_
  have other : name ∉ line.map (·.name.text) := by
    intro member
    obtain ⟨c, inside, rfl⟩ := List.mem_map.1 member
    exact met c inside known
  simp only [List.map_append, List.mem_append, other, false_or]

/-- What has been met by a walk that has yet to come to `line`: with a contract of the line
all below it, and nothing that is sought. -/
structure Passed (contracts : List (Contract α)) (p : Contract α → Bool) (unmet : List String)
    (line : List (Contract α)) : Prop where
  closed : ∀ z ∈ line, z.name.text ∉ unmet →
    ∀ w, Leads (definition? contracts) z w → w.name.text ∉ unmet
  missed : ∀ z ∈ contracts, z.name.text ∉ unmet → p z = false

section Steps

variable {p : Contract α → Bool} {below : List (Contract α)} (hierarchy : Hierarchy contracts)
  (member : c ∈ contracts)
  (inner : Unfolding (definition? contracts) (baseDefinitions (definition? contracts) c) below)
  (passed : Passed contracts p unmet (c :: below ++ rest)) (other : p c = false)

include hierarchy member inner passed other

/-- A contract is met before what is below it. -/
theorem Passed.inside : Passed contracts p (without c.name.text unmet) below where
  closed := by
    intro z inside met w leads known
    have apart : z.name.text ≠ c.name.text := by
      intro same
      obtain ⟨b, base, back⟩ := inner.mem_iff.1 inside
      obtain rfl := hierarchy.eq_of_name
        (mem_of_leads member (inner.mem_cons_iff.1 (List.mem_cons_of_mem c inside))) member same
      exact hierarchy.acyclic z member (.head' base back)
    have old : z.name.text ∉ unmet := fun new => met (mem_without.2 ⟨new, apart⟩)
    have here : z ∈ c :: below ++ rest := List.mem_append.2 (.inl (List.mem_cons_of_mem c inside))
    exact passed.closed z here old w leads (mem_without.1 known).1
  missed := by
    intro z hz met
    by_cases same : z.name.text = c.name.text
    · exact hierarchy.eq_of_name hz member same ▸ other
    · exact passed.missed z hz fun new => met (mem_without.2 ⟨new, same⟩)

/-- What is below a contract is met before what comes behind. -/
theorem Passed.behind (within : ∀ d ∈ rest, d ∈ contracts) (none : below.find? p = none) :
    Passed contracts p (left (without c.name.text unmet) below) rest where
  closed := by
    intro z inside met w leads
    rw [not_mem_left] at met ⊢
    rcases met with old | ⟨d, hd, same⟩
    · exact .inl (passed.closed z (List.mem_append.2 (.inr inside)) old w leads)
    · have leads' := inner.mem_cons_iff.1 hd
      obtain rfl := hierarchy.eq_of_name (mem_of_leads member leads') (within z inside) same
      exact .inr ⟨w, inner.mem_cons_iff.2 (leads'.trans leads), rfl⟩
  missed := by
    intro z hz met
    rcases not_mem_left.1 met with old | ⟨d, hd, same⟩
    · exact passed.missed z hz old
    · obtain rfl := hierarchy.eq_of_name
        (mem_of_leads member (inner.mem_cons_iff.1 hd)) hz same
      rcases List.mem_cons.1 hd with rfl | deep
      · exact other
      · simpa using List.find?_eq_none.1 none d deep

end Steps

/-- What a walk meets first of what is sought is what the unfolding has first. -/
theorem find_walk (hierarchy : Hierarchy contracts) {p : Contract α → Bool}
    (h : Unfolding (definition? contracts) cs line) (within : ∀ c ∈ cs, c ∈ contracts)
    (passed : Passed contracts p unmet line) (pending : List (Contract α)) :
    (walk (definition? contracts) unmet (cs ++ pending)).find? p =
      (line.find? p).or ((walk (definition? contracts) (left unmet line) pending).find? p) := by
  induction h generalizing unmet pending with
  | nil => simp [left]
  | @cons c cs below rest inner others ih ih' =>
      obtain ⟨member, within⟩ := List.forall_mem_cons.1 within
      by_cases new : c.name.text ∈ unmet
      · rw [List.cons_append, walk_unmet new]
        cases other : p c with
        | true => simp [other]
        | false =>
            have first := ih (fun b base => mem_of_extends base)
              (passed.inside hierarchy member inner other) (cs ++ pending)
            rw [List.cons_append, List.find?_cons_of_neg (by simp [other]),
              List.find?_cons_of_neg (by simp [other]), List.find?_append, first]
            cases none : below.find? p with
            | some e => rfl
            | none =>
                have inside : ∀ d ∈ rest, d ∈ contracts := by
                  intro d hd
                  obtain ⟨b, base, leads⟩ := others.mem_iff.1 hd
                  exact mem_of_leads (within b base) leads
                have second := ih' within
                  (passed.behind hierarchy member inner other inside none) pending
                rw [Option.none_or, Option.none_or, second, ← left_cons_append]
                rfl
      · have met : ∀ d ∈ c :: below, d.name.text ∉ unmet := fun d hd =>
          passed.closed c (List.mem_append.2 (.inl List.mem_cons_self)) new d (inner.mem_cons_iff.1 hd)
        have skipped : (c :: below).find? p = none := by
          rw [List.find?_eq_none]
          intro d hd
          simp [passed.missed d (mem_of_leads member (inner.mem_cons_iff.1 hd)) (met d hd)]
        rw [List.cons_append, walk_met new, List.find?_append, skipped, Option.none_or,
          left_of_met met]
        apply ih' within _ pending
        exact ⟨fun z hz => passed.closed z (List.mem_append.2 (.inr hz)), passed.missed⟩

/-- The first contract of a kind among those that a contract inherits from is the first one
in the unfolding. -/
theorem find_ancestry (hierarchy : Hierarchy contracts) (member : c ∈ contracts)
    (h : Unfolding (definition? contracts) [c] line) (p : Contract α → Bool) :
    (ancestry contracts c).find? p = line.find? p := by
  have unmet : ∀ z ∈ contracts, z.name.text ∈ contracts.map (·.name.text) := fun z hz =>
    List.mem_map_of_mem hz
  have inside : ∀ z ∈ line, z ∈ contracts := by
    intro z hz
    obtain ⟨b, base, leads⟩ := h.mem_iff.1 hz
    exact mem_of_leads (List.mem_singleton.1 base ▸ member) leads
  have passed : Passed contracts p (contracts.map (·.name.text)) line :=
    ⟨fun z hz met => absurd (unmet z (inside z hz)) met, fun z hz met => absurd (unmet z hz) met⟩
  have found := find_walk hierarchy h (by simpa using member) passed []
  rw [List.append_nil, walk_nil, List.find?_nil, Option.or_none] at found
  exact found

/-- The contract whose declaration of a name counts for a contract: the first to declare it
among those that the contract inherits from. -/
def declarer? (entries : Contract α → List (String × Ty)) (contracts : List (Contract α))
    (c : Contract α) (name : String) : Option (Contract α) :=
  (ancestry contracts c).find? fun d => ((entries d).lookup name).isSome

theorem lookup_flatMap (entries : Contract α → List (String × Ty)) (cs : List (Contract α))
    (name : String) : (cs.flatMap entries).lookup name =
      (cs.find? fun d => ((entries d).lookup name).isSome).bind fun d => (entries d).lookup name := by
  induction cs with
  | nil => rfl
  | cons c cs ih =>
      rw [List.flatMap_cons, List.lookup_append, ih]
      cases own : (entries c).lookup name <;> simp [own]

theorem leads_of_declarer (hierarchy : Hierarchy contracts) (member : c ∈ contracts)
    {entries : Contract α → List (String × Ty)} {name : String}
    (counts : declarer? entries contracts c name = some e) : Leads (definition? contracts) c e := by
  have within : ∀ d ∈ [c], d ∈ contracts := by simpa using member
  obtain ⟨line, unfolding⟩ := hierarchy.exists_unfolding within
  rw [declarer?, find_ancestry hierarchy member unfolding] at counts
  obtain ⟨b, first, leads⟩ := unfolding.mem_iff.1 (List.mem_of_find?_eq_some counts)
  exact List.mem_singleton.1 first ▸ leads

/-- Whose declaration of a state variable or of a function counts. A contract that declares
the name and inherits from that one is passed over only where some contract lists a base that
leads to that one, and not to it, before a base that leads to it. -/
theorem declarer_beside (hierarchy : Hierarchy contracts) (member : c ∈ contracts) (file : FileScope)
    {entries : Contract α → List (String × Ty)} {seen : List (String × Ty)}
    (kind : entries = stateTypes file ∧ seen = (ContractScope.of file contracts c).state ∨
      entries = returnTypes file ∧ seen = (ContractScope.of file contracts c).returns)
    {name : String} (counts : declarer? entries contracts c name = some e) :
    seen.lookup name = (entries e).lookup name ∧ Leads (definition? contracts) c e ∧
      ∀ d, Leads (definition? contracts) c d → ((entries d).lookup name).isSome = true →
        Inherits (definition? contracts) d e → ∃ f, Leads (definition? contracts) c f ∧
          Parts (definition? contracts) e d (baseDefinitions (definition? contracts) f) := by
  have within : ∀ d ∈ [c], d ∈ contracts := by simpa using member
  obtain ⟨line, unfolding⟩ := hierarchy.exists_unfolding within
  have leads_iff : ∀ d, d ∈ line ↔ Leads (definition? contracts) c d := by
    intro d
    rw [unfolding.mem_iff]
    simp
  have found : line.find? (fun d => ((entries d).lookup name).isSome) = some e := by
    rw [← find_ancestry hierarchy member unfolding]
    exact counts
  refine ⟨?_, leads_of_declarer hierarchy member counts, ?_⟩
  · have scope : seen = (ancestry contracts c).flatMap entries := by
      rcases kind with ⟨rfl, rfl⟩ | ⟨rfl, rfl⟩ <;> rfl
    rw [scope, lookup_flatMap, show (ancestry contracts c).find? _ = some e from counts]
    rfl
  · intro d leads' declares inherits
    obtain ⟨-, before, after, split, earlier⟩ := List.find?_eq_some_iff_append.1 found
    have first : d ∉ before := fun inside => by simpa [declares] using earlier d inside
    have apart : ¬ Leads (definition? contracts) e d :=
      hierarchy.not_leads (mem_of_leads member leads') inherits
    rcases unfolding.parts split first ((leads_iff d).2 leads') apart with ⟨f, inside, parts⟩ | parts
    · exact ⟨f, (leads_iff f).1 inside, parts⟩
    · -- There is nothing beside the contract itself.
      obtain ⟨x, y, row, -⟩ := parts
      simpa using row.length_le

/-- No contract inherits from itself where each is defined behind its bases. -/
theorem acyclic_of_earlier (earlier : ∀ c ∈ contracts,
    ∀ b ∈ baseDefinitions (definition? contracts) c, b.span.start < c.span.start) :
    ∀ c ∈ contracts, ¬ Inherits (definition? contracts) c c := by
  have descends : ∀ c ∈ contracts, ∀ d, Inherits (definition? contracts) c d →
      d.span.start < c.span.start := by
    intro c member d inherits
    induction inherits with
    | single base => exact earlier c member _ base
    | tail inherits base ih =>
        have step := earlier _ (mem_of_leads member inherits.to_reflTransGen) _ base
        omega
  intro c member inherits
  exact Nat.lt_irrefl _ (descends c member c inherits)

/-- Whether a contract takes `x` from one from which a base of its own inherits that declares
`x`, in a file where each contract is defined behind its bases. -/
def overlooks (u : SourceUnit Ty) : Bool :=
  let bases := baseDefinitions (definition? u.contracts)
  let state := stateTypes (FileScope.of u)
  decide (u.contracts.map (·.name.text)).Nodup &&
    (u.contracts.all fun c => (bases c).all fun b => b.span.start < c.span.start) &&
    u.contracts.any fun c => (declarer? state u.contracts c "x").any fun e =>
      (bases c).any fun d => ((state d).lookup "x").isSome &&
        (bases d).any fun b => b.name.text == e.name.text

theorem exists_of_overlooks {u : SourceUnit Ty} (found : overlooks u = true) :
    Hierarchy u.contracts ∧ ∃ c ∈ u.contracts, ∃ e d,
      declarer? (stateTypes (FileScope.of u)) u.contracts c "x" = some e ∧
      Leads (definition? u.contracts) c d ∧
      ((stateTypes (FileScope.of u) d).lookup "x").isSome = true ∧
      Inherits (definition? u.contracts) d e := by
  simp only [overlooks, Bool.and_eq_true, decide_eq_true_eq, List.all_eq_true] at found
  obtain ⟨⟨distinct, earlier⟩, found⟩ := found
  have hierarchy : Hierarchy u.contracts := ⟨distinct, acyclic_of_earlier earlier⟩
  obtain ⟨c, member, found⟩ := List.any_eq_true.1 found
  obtain ⟨e, counts, found⟩ := (Option.any_eq_true _ _).1 found
  obtain ⟨d, base, found⟩ := List.any_eq_true.1 found
  obtain ⟨declares, found⟩ := Bool.and_eq_true_iff.1 found
  obtain ⟨b, base', same⟩ := List.any_eq_true.1 found
  have leads := leads_of_declarer hierarchy member counts
  obtain rfl : b = e :=
    hierarchy.eq_of_name (mem_of_extends base') (mem_of_leads member leads) (by simpa using same)
  exact ⟨hierarchy, c, member, b, d, counts, .single base, declares, .single base'⟩

/-- Of the two bases of the last contract the second declares `x` anew. -/
def diamondSource : Source :=
  ("contract G \x7b uint8 x; \x7d contract A is G \x7b \x7d contract B is G \x7b uint256 x; \x7d " ++
    "contract C is A, B \x7b \x7d").toList

theorem declarer_beside_diamond : ∃ u c e d f, diamondSource.front = .ok u ∧ c ∈ u.contracts ∧
    declarer? (stateTypes (FileScope.of u)) u.contracts c "x" = some e ∧
    Inherits (definition? u.contracts) d e ∧ Leads (definition? u.contracts) c f ∧
    Parts (definition? u.contracts) e d (baseDefinitions (definition? u.contracts) f) := by
  have accepted : diamondSource.front.toOption.any overlooks = true := by decide +kernel
  obtain ⟨u, accepted, found⟩ := exists_of_any accepted
  obtain ⟨hierarchy, c, member, e, d, counts, leads, declares, inherits⟩ := exists_of_overlooks found
  obtain ⟨-, -, beside⟩ := declarer_beside hierarchy member (FileScope.of u) (.inl ⟨rfl, rfl⟩) counts
  obtain ⟨f, leads', parts⟩ := beside d leads declares inherits
  exact ⟨u, c, e, d, f, accepted, member, counts, inherits, leads', parts⟩

/-- The last contract names a contract as a base, and then another one that inherits from it
and declares `x` anew. -/
def baseFirstSource : Source :=
  ("contract E \x7b uint8 x; \x7d contract D is E \x7b uint256 x; \x7d " ++
    "contract C is E, D \x7b function f() \x7b x + 1; \x7d \x7d").toList

/-- The declaration that counts is not the one that is nearest. -/
theorem declarer_baseFirst : ∃ u c e d, baseFirstSource.front = .ok u ∧ Hierarchy u.contracts ∧
    c ∈ u.contracts ∧ declarer? (stateTypes (FileScope.of u)) u.contracts c "x" = some e ∧
    Leads (definition? u.contracts) c d ∧
    ((stateTypes (FileScope.of u) d).lookup "x").isSome = true ∧
    Inherits (definition? u.contracts) d e := by
  have accepted : baseFirstSource.front.toOption.any overlooks = true := by decide +kernel
  obtain ⟨u, accepted, found⟩ := exists_of_any accepted
  obtain ⟨hierarchy, c, member, e, d, taken⟩ := exists_of_overlooks found
  exact ⟨u, c, e, d, accepted, hierarchy, member, taken⟩

end File

end SafeSubset.Typing
