import Mathlib.Order.Filter.AtTopBot.Basic
import SafeSubset.Proofs.Grammar.File

/-! Reading without limits. A rule runs as it is written: a repetition goes on until its
value is missing, and a call is followed wherever it leads. In a layered grammar each
proper rule has exactly one run at each place, so reading always ends, and the limits under
which phrases are read have no part in how it ends. -/
namespace SafeSubset.Grammar

open Token (Kind Lexeme)

/-- The place `after` is the one behind the tokens `taken`, which come next. -/
def Cursor.Passes (c : Cursor) (taken : List Lexeme) (after : Cursor) : Prop :=
  c.rest = taken ++ after.rest ∧ after = c.past taken after.rest

variable {N : Type} {R : N → Type} {g : Rules R} {α β : Type} {c after : Cursor}
  {register noted : Register}

/-- A rule is run at a place to its end. Nothing limits how often a value is repeated or
how deep calls nest. -/
inductive Rule.Runs (g : Rules R) : {α : Type} → Rule R α → Cursor → Register →
    Option (α × Cursor) × Register → Prop where
  | token {kind c register} : Runs g (.token kind) c register (Reader.token kind c register)
  | except {kind c register} : Runs g (.except kind) c register (Reader.except kind c register)
  | word {α : Type} {meaning : String → Except Misfit α} {c register} :
      Runs g (.word meaning) c register (Reader.word meaning c register)
  | call {n c register outcome} : Runs g (g n) c register outcome → Runs g (.call n) c register outcome
  | map {α β : Type} {f : α → β} {r : Rule R α} {c register found noted} :
      Runs g r c register (found, noted) →
        Runs g (.map f r) c register (found.map fun p => (f p.1, p.2), noted)
  | broken {α β : Type} {r : Rule R α} {s : Rule R β} {c register noted} :
      Runs g r c register (none, noted) → Runs g (.seq r s) c register (none, noted)
  | seq {α β : Type} {r : Rule R α} {s : Rule R β} {c register a middle found noted noted'} :
      Runs g r c register (some (a, middle), noted) → Runs g s middle noted (found, noted') →
        Runs g (.seq r s) c register (found.map fun p => ((a, p.1), p.2), noted')
  | first {α : Type} {r s : Rule R α} {c register found noted} :
      Runs g r c register (some found, noted) → Runs g (.choice r s) c register (some found, noted)
  | second {α : Type} {r s : Rule R α} {c register outcome noted} :
      Runs g r c register (none, noted) → Runs g s c noted outcome →
        Runs g (.choice r s) c register outcome
  | absent {α : Type} {r : Rule R α} {c register noted} :
      Runs g r c register (none, noted) → Runs g (.optional r) c register (some (none, c), noted)
  | present {α : Type} {r : Rule R α} {c register a after noted} :
      Runs g r c register (some (a, after), noted) →
        Runs g (.optional r) c register (some (some a, after), noted)
  | done {α : Type} {r : Rule R α} {c register noted} :
      Runs g r c register (none, noted) → Runs g (.many r) c register (some ([], c), noted)
  | again {α : Type} {r : Rule R α} {c register a middle found noted noted'} :
      Runs g r c register (some (a, middle), noted) → Runs g (.many r) middle noted (found, noted') →
        Runs g (.many r) c register (found.map fun p => (a :: p.1, p.2), noted')
  | spanned {α : Type} {r : Rule R α} {c register found noted} :
      Runs g r c register (found, noted) →
        Runs g (.spanned r) c register (found.map fun p => ((p.1, c.spanTo p.2), p.2), noted)
  | verbatim {α : Type} {r : Rule R α} {c register found noted} :
      Runs g r c register (found, noted) →
        Runs g (.verbatim r) c register
          (found.map fun p => (String.ofList (Source.slice c.source (c.spanTo p.2)), p.2), noted)

/-- The rule `x` stands in another rule, or in that of a nonterminal which is called from there. -/
inductive Rule.Part (g : Rules R) {α : Type} (x : Rule R α) : {β : Type} → Rule R β → Prop where
  | self : Part g x x
  | call {n : N} : Part g x (g n) → Part g x (.call n)
  | map {β γ : Type} {f : β → γ} {r : Rule R β} : Part g x r → Part g x (.map f r)
  | fst {β γ : Type} {r : Rule R β} {s : Rule R γ} : Part g x r → Part g x (.seq r s)
  | snd {β γ : Type} {r : Rule R β} {s : Rule R γ} : Part g x s → Part g x (.seq r s)
  | left {β : Type} {r s : Rule R β} : Part g x r → Part g x (.choice r s)
  | right {β : Type} {r s : Rule R β} : Part g x s → Part g x (.choice r s)
  | optional {β : Type} {r : Rule R β} : Part g x r → Part g x (.optional r)
  | many {β : Type} {r : Rule R β} : Part g x r → Part g x (.many r)
  | spanned {β : Type} {r : Rule R β} : Part g x r → Part g x (.spanned r)
  | verbatim {β : Type} {r : Rule R β} : Part g x r → Part g x (.verbatim r)

/-- What stands in a proper rule is proper. -/
theorem Rule.Part.proper (layered : g.Layered) {x : Rule R α} {r : Rule R β} (part : x.Part g r)
    (proper : r.proper) : x.proper := by
  induction part with
  | self => exact proper
  | call _ ih => exact ih (layered.proper _)
  | map _ ih | optional _ ih => exact ih proper
  | fst _ ih | left _ ih =>
      simp only [Rule.proper, Bool.and_eq_true] at proper
      exact ih proper.1
  | snd _ ih | right _ ih | many _ ih | spanned _ ih | verbatim _ ih =>
      simp only [Rule.proper, Bool.and_eq_true] at proper
      exact ih proper.2

theorem Rule.Part.trans {γ : Type} {x : Rule R α} {y : Rule R β} {z : Rule R γ} (inner : x.Part g y)
    (outer : y.Part g z) : x.Part g z := by
  induction outer with
  | self => exact inner
  | call _ ih => exact .call ih
  | map _ ih => exact .map ih
  | fst _ ih => exact .fst ih
  | snd _ ih => exact .snd ih
  | left _ ih => exact .left ih
  | right _ ih => exact .right ih
  | optional _ ih => exact .optional ih
  | many _ ih => exact .many ih
  | spanned _ ih => exact .spanned ih
  | verbatim _ ih => exact .verbatim ih

section Advances

variable {r : Rule R α} {a : α} {depth : Nat} {taken : List Lexeme}

theorem Cursor.Passes.eq (passes : c.Passes [] after) : after = c := by
  obtain ⟨rest, place⟩ := passes
  rw [place, ← List.nil_append after.rest, ← rest]
  rfl

theorem Cursor.Passes.shorter (passes : c.Passes taken after) (some : taken ≠ []) :
    after.rest.length < c.rest.length := by
  have := List.length_pos_iff.2 some
  rw [passes.1, List.length_append]
  omega

/-- What has been read stands in front of the place behind it, whatever the depth. -/
theorem Rules.read_advances (layered : g.Layered) (proper : r.proper)
    (found : r.read (g.read depth) c register = (some (a, after), noted)) :
    ∃ taken, c.Passes taken after ∧ (r.consumes → taken ≠ []) := by
  have advance : Calls.Advance (g.split c.source depth) := Rules.split_advance layered depth
  have agree := Rule.read_split advance proper (Rules.read_split layered depth) c register rfl
  rw [found] at agree
  obtain ⟨x, reading, same⟩ := Option.map_eq_some_iff.1 agree.symm
  obtain ⟨of, takes⟩ := Rule.split_advances advance reading
  obtain ⟨rfl, rfl⟩ := Prod.mk.inj same
  exact ⟨x.taken, ⟨of, rfl⟩, takes⟩

/-- What a reader reads leaves fewer tokens. -/
def Reader.Shortens (read : Reader α) : Prop :=
  ∀ ⦃c register a after noted⦄, read c register = (some (a, after), noted) →
    after.rest.length < c.rest.length

theorem Rules.read_shortens (layered : g.Layered) (depth : Nat) (proper : r.proper) (takes : r.consumes) :
    Reader.Shortens (r.read (g.read depth)) := by
  intro c register a after noted found
  obtain ⟨taken, passes, some⟩ := Rules.read_advances layered proper found
  exact passes.shorter (some takes)

/-- A repetition ends before its limit. -/
theorem Reader.many_limit {read : Reader α} (shortens : read.Shortens) {limit limit' : Nat}
    (enough : c.rest.length < limit) (enough' : c.rest.length < limit') :
    Reader.many read limit c register = Reader.many read limit' c register := by
  induction limit generalizing limit' c register with
  | zero => omega
  | succ limit ih =>
      cases limit' with
      | zero => omega
      | succ limit' =>
          unfold many
          rcases found : read c register with ⟨_ | ⟨a, after⟩, noted⟩
          · rfl
          · have := shortens found
            have same : many read limit after noted = many read limit' after noted :=
              ih (by omega) (by omega)
            simp only [same]

end Advances

section Steps

variable {call : (n : N) → Reader (R n)} {r : Rule R α} {s : Rule R β} {a : α} {middle : Cursor}
  {noted' : Register}

theorem Rule.read_map {f : α → β} {found : Option (α × Cursor)}
    (h : r.read call c register = (found, noted)) :
    (Rule.map f r).read call c register = (found.map fun p => (f p.1, p.2), noted) := by
  unfold read
  rw [h]
  cases found <;> rfl

theorem Rule.read_spanned {found : Option (α × Cursor)} (h : r.read call c register = (found, noted)) :
    (Rule.spanned r).read call c register = (found.map fun p => ((p.1, c.spanTo p.2), p.2), noted) := by
  unfold read
  rw [h]
  cases found <;> rfl

theorem Rule.read_verbatim {found : Option (α × Cursor)} (h : r.read call c register = (found, noted)) :
    (Rule.verbatim r).read call c register =
      (found.map fun p => (String.ofList (Source.slice c.source (c.spanTo p.2)), p.2), noted) := by
  unfold read
  rw [h]
  cases found <;> rfl

theorem Rule.read_broken (h : r.read call c register = (none, noted)) :
    (Rule.seq r s).read call c register = (none, noted) := by
  unfold read
  rw [h]

theorem Rule.read_seq {found : Option (β × Cursor)}
    (first : r.read call c register = (some (a, middle), noted))
    (second : s.read call middle noted = (found, noted')) :
    (Rule.seq r s).read call c register = (found.map fun p => ((a, p.1), p.2), noted') := by
  unfold read
  rw [first]
  dsimp only
  rw [second]
  cases found <;> rfl

theorem Rule.read_first {s : Rule R α} {found : α × Cursor}
    (h : r.read call c register = (some found, noted)) :
    (Rule.choice r s).read call c register = (some found, noted) := by
  unfold read
  rw [h]

theorem Rule.read_second {s : Rule R α} (h : r.read call c register = (none, noted)) :
    (Rule.choice r s).read call c register = s.read call c noted := by
  conv_lhs => unfold read
  rw [h]

theorem Rule.read_absent (h : r.read call c register = (none, noted)) :
    (Rule.optional r).read call c register = (some (none, c), noted) := by
  unfold read
  rw [h]

theorem Rule.read_present (h : r.read call c register = (some (a, after), noted)) :
    (Rule.optional r).read call c register = (some (some a, after), noted) := by
  unfold read
  rw [h]

theorem Reader.many_done {read : Reader α} {limit : Nat} (h : read c register = (none, noted)) :
    Reader.many read (limit + 1) c register = (some ([], c), noted) := by
  unfold many
  rw [h]

theorem Reader.many_again {read : Reader α} {limit : Nat} {found : Option (List α × Cursor)}
    (first : read c register = (some (a, middle), noted))
    (others : Reader.many read limit middle noted = (found, noted')) :
    Reader.many read (limit + 1) c register = (found.map fun p => (a :: p.1, p.2), noted') := by
  unfold many
  rw [first]
  dsimp only
  rw [others]
  cases found <;> rfl

end Steps

section Ends

/-- A repetition runs to its end if its value does, here and wherever it comes. -/
theorem Reader.many_runs {r : Rule R α} {read : Reader α} (shortens : read.Shortens)
    {limit : Nat} (enough : c.rest.length < limit)
    (value : ∀ c', c' = c ∨ c'.rest.length < c.rest.length → ∀ register,
      r.Runs g c' register (read c' register)) :
    (Rule.many r).Runs g c register (Reader.many read limit c register) := by
  induction limit generalizing c register with
  | zero => omega
  | succ limit ih =>
      have here := value c (.inl rfl) register
      rcases found : read c register with ⟨_ | ⟨a, after⟩, noted⟩ <;> rw [found] at here
      · rw [many_done found]
        exact .done here
      · have less := shortens found
        rw [many_again found rfl]
        refine .again here (ih (by omega) fun c' place => value c' (.inr ?_))
        rcases place with rfl | h <;> omega

/-- A rule has a run if the nonterminals do that lead at the place itself, and all of them behind it. -/
theorem Rule.runs_read (layered : g.Layered) {r : Rule R α} (proper : r.proper) {depth : Nat}
    (here : ∀ n ∈ r.leading, ∀ register, (g n).Runs g c register (g.read depth n c register))
    (behind : ∀ c', c'.rest.length < c.rest.length → ∀ n register,
      (g n).Runs g c' register (g.read depth n c' register)) :
    r.Runs g c register (r.read (g.read depth) c register) := by
  induction r generalizing c register with
  | token kind => exact .token
  | except kind => exact .except
  | word meaning => exact .word
  | call n => exact .call (here n (by simp [leading]) register)
  | map f r ih =>
      rw [read_map rfl]
      exact .map (ih proper here behind)
  | spanned r ih =>
      simp only [Rule.proper, Bool.and_eq_true] at proper
      rw [read_spanned rfl]
      exact .spanned (ih proper.2 here behind)
  | verbatim r ih =>
      simp only [Rule.proper, Bool.and_eq_true] at proper
      rw [read_verbatim rfl]
      exact .verbatim (ih proper.2 here behind)
  | optional r ih =>
      have inner := @ih c register proper here behind
      rcases found : r.read (g.read depth) c register with ⟨_ | ⟨a, after⟩, noted⟩ <;>
        rw [found] at inner
      · rw [read_absent found]
        exact .absent inner
      · rw [read_present found]
        exact .present inner
  | choice r s ihr ihs =>
      simp only [Rule.proper, Bool.and_eq_true] at proper
      simp only [leading, List.mem_append] at here
      have first := @ihr c register proper.1 (fun n h => here n (.inl h)) behind
      rcases found : r.read (g.read depth) c register with ⟨_ | _, noted⟩ <;> rw [found] at first
      · rw [read_second found]
        exact .second first (ihs proper.2 (fun n h => here n (.inr h)) behind)
      · rw [read_first found]
        exact .first first
  | seq r s ihr ihs =>
      simp only [Rule.proper, Bool.and_eq_true] at proper
      simp only [leading, List.mem_append] at here
      have first := @ihr c register proper.1 (fun n h => here n (.inl h)) behind
      rcases found : r.read (g.read depth) c register with ⟨_ | ⟨a, middle⟩, noted⟩ <;>
        rw [found] at first
      · rw [read_broken found]
        exact .broken first
      · rw [read_seq found rfl]
        refine .seq first ?_
        obtain ⟨taken, passes, takes⟩ := Rules.read_advances layered proper.1 found
        by_cases still : taken = []
        · subst still
          -- nothing has been taken, so what leads in `s` leads here
          have quiet : r.consumes = false := Bool.eq_false_iff.2 fun h => takes h rfl
          rw [passes.eq]
          exact ihs proper.2 (fun n h => here n (.inr (by simp [quiet, h]))) behind
        · have less := passes.shorter still
          exact ihs proper.2 (fun n _ => behind middle less n) fun c' h => behind c' (Nat.lt_trans h less)
  | many r ih =>
      simp only [Rule.proper, Bool.and_eq_true] at proper
      refine Reader.many_runs (Rules.read_shortens layered _ proper.2 proper.1) (Nat.lt_succ_self _) ?_
      rintro c' (rfl | less) register
      · exact ih proper.2 here behind
      · exact ih proper.2 (fun n _ => behind c' less n) fun c'' h => behind c'' (Nat.lt_trans h less)

/-- A nonterminal has a run, which reading finds at every depth that is enough. -/
theorem Rules.runs_read (layered : g.Layered) {depth : Nat} {n : N}
    (enough : layered.height * c.rest.length + layered.rank n < depth) :
    (g n).Runs g c register (g.read depth n c register) := by
  induction depth generalizing n c register with
  | zero => omega
  | succ depth ih =>
      refine Rule.runs_read layered (layered.proper n) ?_ ?_
      · intro m leads register
        have := layered.lower n m leads
        exact ih (by omega)
      · intro c' less m register
        have := layered.behind less m
        exact ih (by omega)

/-- What a proper rule ends with when it runs is what reading ends with at every depth but
those that are too small. -/
theorem Rule.Runs.read (layered : g.Layered) {r : Rule R α} {outcome : Option (α × Cursor) × Register}
    (runs : r.Runs g c register outcome) (proper : r.proper) :
    ∀ᶠ depth in Filter.atTop, r.read (g.read depth) c register = outcome := by
  induction runs with
  | token | except | word => exact .of_forall fun _ => rfl
  | call _ ih =>
      have inner := (Filter.tendsto_sub_atTop_nat 1).eventually (ih (layered.proper _))
      filter_upwards [inner, Filter.eventually_gt_atTop 0] with depth same some
      cases depth with
      | zero => contradiction
      | succ depth => exact same
  | map _ ih => exact (ih proper).mono fun _ => read_map
  | absent _ ih => exact (ih proper).mono fun _ => read_absent
  | present _ ih => exact (ih proper).mono fun _ => read_present
  | spanned _ ih =>
      simp only [Rule.proper, Bool.and_eq_true] at proper
      exact (ih proper.2).mono fun _ => read_spanned
  | verbatim _ ih =>
      simp only [Rule.proper, Bool.and_eq_true] at proper
      exact (ih proper.2).mono fun _ => read_verbatim
  | broken _ ih =>
      simp only [Rule.proper, Bool.and_eq_true] at proper
      exact (ih proper.1).mono fun _ => read_broken
  | first _ ih =>
      simp only [Rule.proper, Bool.and_eq_true] at proper
      exact (ih proper.1).mono fun _ => read_first
  | seq _ _ ihr ihs =>
      simp only [Rule.proper, Bool.and_eq_true] at proper
      filter_upwards [ihr proper.1, ihs proper.2] with depth first second
      exact read_seq first second
  | second _ _ ihr ihs =>
      simp only [Rule.proper, Bool.and_eq_true] at proper
      filter_upwards [ihr proper.1, ihs proper.2] with depth first second
      exact (read_second first).trans second
  | done _ ih =>
      simp only [Rule.proper, Bool.and_eq_true] at proper
      exact (ih proper.2).mono fun _ => Reader.many_done
  | again _ _ ihr ihs =>
      have item := proper
      simp only [Rule.proper, Bool.and_eq_true] at item
      filter_upwards [ihr item.2, ihs proper] with depth first others
      have shortens := Rules.read_shortens layered depth item.2 item.1
      -- behind the first value the limit is lower, but still enough
      refine Reader.many_again first (.trans ?_ others)
      exact Reader.many_limit shortens (shortens first) (Nat.lt_succ_self _)

/-- A rule has one run at each place. -/
theorem Rule.Runs.unique (layered : g.Layered) {r : Rule R α} (proper : r.proper)
    {outcome outcome' : Option (α × Cursor) × Register} (runs : r.Runs g c register outcome)
    (runs' : r.Runs g c register outcome') : outcome = outcome' := by
  obtain ⟨depth, same, same'⟩ := ((runs.read layered proper).and (runs'.read layered proper)).exists
  rw [← same, same']

end Ends

section Lists

variable {depth : Nat} {as : List α}

/-- A repetition never fails. -/
theorem Reader.many_found (read : Reader α) (limit : Nat) (c : Cursor) (register : Register) :
    ∃ as after noted, Reader.many read limit c register = (some (as, after), noted) := by
  induction limit generalizing c register with
  | zero => exact ⟨[], c, register, rfl⟩
  | succ limit ih =>
      rcases first : read c register with ⟨_ | ⟨a, middle⟩, noted⟩
      · exact ⟨_, _, _, many_done first⟩
      · obtain ⟨as, after, noted', others⟩ := ih middle noted
        exact ⟨_, _, _, many_again first others⟩

/-- There are no more values in a row than tokens that they take. -/
theorem Reader.many_length {read : Reader α} (shortens : read.Shortens) {limit : Nat}
    (found : Reader.many read limit c register = (some (as, after), noted)) :
    as.length + after.rest.length ≤ c.rest.length := by
  induction limit generalizing c register as with
  | zero =>
      cases found
      simp
  | succ limit ih =>
      rcases first : read c register with ⟨_ | ⟨a, middle⟩, noted⟩
      · rw [many_done first] at found
        cases found
        simp
      · have less := shortens first
        rcases rest : many read limit middle noted with ⟨_ | ⟨tail, last⟩, _⟩ <;>
          rw [many_again first rest] at found <;> cases found
        have behind : tail.length + last.rest.length ≤ middle.rest.length := ih rest
        show tail.length + 1 + last.rest.length ≤ c.rest.length
        omega

theorem Rules.separated_length (layered : g.Layered) {r : Rule R α} {s : Rule R β}
    (proper : (Rule.separated1 r s).proper) {a : α}
    (found : (Rule.separated1 r s).read (g.read depth) c register = (some ((a, as), after), noted)) :
    as.length + after.rest.length ≤ c.rest.length := by
  unfold Rule.separated1 at proper found
  simp only [Rule.proper, Bool.and_eq_true] at proper
  rcases first : r.read (g.read depth) c register with ⟨_ | ⟨b, middle⟩, noted⟩
  · rw [Rule.read_broken first] at found
    cases found
  · have shortens := Rules.read_shortens layered depth proper.2.2 proper.2.1
    obtain ⟨taken, passes, -⟩ := Rules.read_advances layered proper.1 first
    have front := congrArg List.length passes.1
    rw [List.length_append] at front
    rcases others : (Rule.many (s *> r)).read (g.read depth) middle noted with ⟨_ | ⟨tail, last⟩, _⟩ <;>
      rw [Rule.read_seq first others] at found <;> cases found
    have := Reader.many_length shortens others
    show tail.length + last.rest.length ≤ c.rest.length
    omega

end Lists

namespace Phrase

/-- What files are made of. -/
def constituents : List (Σ α : Type, Phrase α) :=
  [⟨_, expression⟩, ⟨_, typeName⟩, ⟨_, statement⟩, ⟨_, parameter⟩, ⟨_, headItem⟩, ⟨_, member⟩,
    ⟨_, base⟩, ⟨_, pragma <|> inclusion <|> contract⟩]

variable {r : Phrase α} {outcome : Option (α × Cursor) × Register}

/-- A proper phrase has one run at each place, and reading finds it. -/
theorem runs_iff (proper : r.proper) :
    r.Runs rules c register outcome ↔ outcome = Phrase.read r c register := by
  have runs : r.Runs rules c register (Phrase.read r c register) := by
    refine Rule.runs_read layered proper ?_ ?_
    · intro n _ register
      exact Rules.runs_read layered (layered.behind (Nat.lt_succ_self _) n)
    · intro c' less n register
      exact Rules.runs_read layered (layered.behind (Nat.lt_succ_of_lt less) n)
  constructor
  · intro other
    exact other.unique layered proper runs
  · rintro rfl
    exact runs

theorem part_located {x : Phrase α} {r : Phrase β} {γ : Type} {build : Span → β → γ}
    (part : x.Part rules r) : x.Part rules (Rule.located build r) := .map (.spanned part)

/-- What stands between two tokens. -/
theorem part_between {x : Phrase α} {r : Phrase β} {first last : Kind} (part : x.Part rules r) :
    x.Part rules (Rule.token first *> r <* Rule.token last) := .map (.fst (.map (.snd part)))

theorem part_commas {x : Phrase α} {r : Phrase β} (part : x.Part rules r) :
    x.Part rules (commas r) := .map (.optional (.fst part))

theorem part_nodes : (pragma <|> inclusion <|> contract).Part rules nodes := .many .self

theorem part_member : member.Part rules nodes :=
  .many (.right (.right (part_located (.snd (.snd (.snd (part_between (.many .self))))))))

theorem part_base : base.Part rules nodes :=
  .many (.right (.right (part_located (.snd (.snd (.fst (.optional (.map (.map (.snd (.fst .self)))))))))))

theorem part_parameter : parameter.Part rules member :=
  .left (part_located (.snd (.fst (part_between (part_commas .self)))))

theorem part_headItem : headItem.Part rules member :=
  .left (part_located (.snd (.snd (.fst (.many .self)))))

theorem part_statement : statement.Part rules member :=
  .left (part_located (.snd (.snd (.snd (.snd (.left (.map (part_located (part_between (.many .self))))))))))

theorem part_typeName : typeName.Part rules parameter := part_located (.fst (.map (.fst .self)))

theorem part_expression : expression.Part rules base :=
  part_located (.snd (.optional (part_between (part_commas .self))))

theorem part_of_constituents : ∀ p ∈ constituents, p.2.Part rules nodes := by
  intro p member
  simp only [constituents, List.mem_cons, List.not_mem_nil, or_false] at member
  obtain rfl | rfl | rfl | rfl | rfl | rfl | rfl | rfl := member
  · exact part_expression.trans part_base
  · exact (part_typeName.trans part_parameter).trans part_member
  · exact part_statement.trans part_member
  · exact part_parameter.trans part_member
  · exact part_headItem.trans part_member
  · exact part_member
  · exact part_base
  · exact part_nodes

theorem consumes_of_constituents : ∀ p ∈ constituents, p.2.consumes := by
  intro p member
  simp only [constituents, List.mem_cons, List.not_mem_nil, or_false] at member
  obtain rfl | rfl | rfl | rfl | rfl | rfl | rfl | rfl := member <;> rfl

/-- What a phrase reads stands in front of the place behind it. -/
theorem passes_of_runs (proper : r.proper) {a : α} (runs : r.Runs rules c register (some (a, after), noted)) :
    ∃ taken, c.Passes taken after ∧ (r.consumes → taken ≠ []) :=
  Rules.read_advances layered proper ((runs_iff proper).1 runs).symm

/-- A text is read by a phrase if the run of the phrase leaves none of its tokens. -/
theorem readAll_runs {source : Source} {ls : List Lexeme} {a : α} (proper : r.proper) :
    r.readAll (.start source ls) = .ok a ↔ ∃ noted,
      r.Runs rules (.start source ls) none (some (a, (Cursor.start source ls).past ls []), noted) := by
  unfold readAll
  simp only [runs_iff proper]
  constructor
  · intro read
    rcases found : r.read (.start source ls) none with ⟨_ | ⟨b, after⟩, noted⟩ <;>
      simp only [found] at read
    · cases read
    · split at read <;> cases read
      next ended =>
        obtain ⟨taken, ⟨front, place⟩, -⟩ := passes_of_runs proper ((runs_iff proper).2 found.symm)
        have none := List.isEmpty_iff.1 ended
        rw [none, List.append_nil] at front
        rw [none, ← front] at place
        exact ⟨noted, by rw [place]; rfl⟩
  · rintro ⟨noted, found⟩
    rw [← found]
    rfl

end Phrase

/-- Reading always gets on and ends. Every rule in the grammar of files has exactly one run
at each place, whatever the tokens are, which is what reading under limits finds; it passes
tokens that come next, at least one where the rule is for a constituent. No repetition and no
separated list has more items than tokens. What is read as a whole has no token left. -/
theorem reading_ends :
    (∀ (α : Type) (r : Phrase α), r.Part rules Phrase.nodes → ∀ c register,
      (∀ outcome, r.Runs rules c register outcome ↔ outcome = Phrase.read r c register) ∧
        ∀ a after noted, r.Runs rules c register (some (a, after), noted) →
          ∃ taken, c.Passes taken after) ∧
      (∀ p ∈ Phrase.constituents, p.2.Part rules Phrase.nodes ∧ ∀ c register a after noted,
        p.2.Runs rules c register (some (a, after), noted) →
          ∃ taken, c.Passes taken after ∧ taken ≠ []) ∧
      (∀ (α : Type) (r : Phrase α), (Rule.many r).Part rules Phrase.nodes → ∀ c register,
        ∃ as after noted, (Rule.many r).Runs rules c register (some (as, after), noted) ∧
          as.length + after.rest.length ≤ c.rest.length) ∧
      (∀ (α β : Type) (r : Phrase α) (s : Phrase β), (Rule.separated1 r s).Part rules Phrase.nodes →
        ∀ c register a as after noted,
          (Rule.separated1 r s).Runs rules c register (some ((a, as), after), noted) →
            as.length + after.rest.length ≤ c.rest.length) ∧
      (∀ source ls ns, Phrase.nodes.readAll (.start source ls) = .ok ns ↔ ∃ noted,
        Phrase.nodes.Runs rules (.start source ls) none
          (some (ns, (Cursor.start source ls).past ls []), noted)) ∧
      ∀ (source : Source) (u : SourceUnit Unit), source.parse.unit = .ok u →
        ∃ ns noted, u.nodes = numberNodes 0 ns ∧
          Phrase.nodes.Runs rules (.start source (Token.scan source).lexemes) none
            (some (ns, (Cursor.start source (Token.scan source).lexemes).past
              (Token.scan source).lexemes []), noted) := by
  have nodes : Phrase.nodes.proper := by rfl
  refine ⟨?_, ?_, ?_, ?_, ?_, ?_⟩
  · intro α r part c register
    have proper := part.proper layered nodes
    refine ⟨fun outcome => Phrase.runs_iff proper, fun a after noted runs => ?_⟩
    obtain ⟨taken, passes, -⟩ := Phrase.passes_of_runs proper runs
    exact ⟨taken, passes⟩
  · intro p member
    have part := Phrase.part_of_constituents p member
    refine ⟨part, fun c register a after noted runs => ?_⟩
    obtain ⟨taken, passes, some⟩ := Phrase.passes_of_runs (part.proper layered nodes) runs
    exact ⟨taken, passes, some (Phrase.consumes_of_constituents p member)⟩
  · intro α r part c register
    have proper := part.proper layered nodes
    obtain ⟨as, after, noted, found⟩ := Reader.many_found _ (c.rest.length + 1) c register
    refine ⟨as, after, noted, (Phrase.runs_iff proper).2 found.symm, ?_⟩
    simp only [Rule.proper, Bool.and_eq_true] at proper
    exact Reader.many_length (Rules.read_shortens layered _ proper.2 proper.1) found
  · intro α β r s part c register a as after noted runs
    have proper := part.proper layered nodes
    exact Rules.separated_length layered proper ((Phrase.runs_iff proper).1 runs).symm
  · intro source ls ns
    exact Phrase.readAll_runs nodes
  · intro source u parsed
    obtain ⟨ns, rfl, split⟩ := Source.split_of_parse parsed
    obtain ⟨noted, runs⟩ := (Phrase.readAll_runs nodes).1 ((Phrase.readAll_iff nodes).2 split)
    exact ⟨ns, noted, rfl, runs⟩

/-- The start of some parameters that break off. -/
def brokenOff : Cursor :=
  .start "uint8 a, uint8 b,".toList (Token.scan "uint8 a, uint8 b,".toList).lexemes

/-- A file with a directive and a contract. -/
def smallFile : Source := "pragma a; contract C \x7b \x7d".toList

theorem reading_ends_brokenOff :
    (∃ as after noted, (Rule.many Phrase.member).Runs rules brokenOff none (some (as, after), noted) ∧
      as.length + after.rest.length ≤ brokenOff.rest.length) ∧
    (∃ p after noted taken, Phrase.parameter.Runs rules brokenOff none (some (p, after), noted) ∧
      brokenOff.Passes taken after ∧ taken ≠ []) ∧
    (∃ p ps after noted,
      (Rule.separated1 Phrase.parameter (Phrase.mark .comma)).Runs rules brokenOff none
        (some ((p, ps), after), noted) ∧
      ps.length + after.rest.length ≤ brokenOff.rest.length) ∧
    ∃ u ns noted, smallFile.parse.unit = .ok u ∧ u.nodes = numberNodes 0 ns ∧
      Phrase.nodes.Runs rules (.start smallFile (Token.scan smallFile).lexemes) none
        (some (ns, (Cursor.start smallFile (Token.scan smallFile).lexemes).past
          (Token.scan smallFile).lexemes []), noted) := by
  obtain ⟨ends, constituents, lists, separated, -, files⟩ := reading_ends
  have inMembers : (Rule.many Phrase.member).Part rules Phrase.nodes :=
    .many (.right (.right (Phrase.part_located (.snd (.snd (.snd (Phrase.part_between .self)))))))
  have inParameters : (Rule.separated1 Phrase.parameter (Phrase.mark .comma)).Part rules Phrase.nodes :=
    .trans (.left (Phrase.part_located (.snd (.fst (Phrase.part_between (.map (.optional .self)))))))
      Phrase.part_member
  obtain ⟨inNodes, gets⟩ := constituents ⟨_, Phrase.parameter⟩ (by simp [Phrase.constituents])
  refine ⟨lists _ _ inMembers _ _, ?_, ?_, ?_⟩
  · have some : (Phrase.read Phrase.parameter brokenOff none).1.isSome = true := by decide +kernel
    rcases found : Phrase.read Phrase.parameter brokenOff none with ⟨_ | ⟨p, after⟩, noted⟩
    · rw [found] at some
      cases some
    · have runs := ((ends _ _ inNodes brokenOff none).1 _).2 found.symm
      obtain ⟨taken, passes, some⟩ := gets _ _ _ _ _ runs
      exact ⟨p, after, noted, taken, runs, passes, some⟩
  · have some : (Phrase.read (Rule.separated1 Phrase.parameter (Phrase.mark .comma)) brokenOff none).1.isSome =
        true := by decide +kernel
    rcases found : Phrase.read (Rule.separated1 Phrase.parameter (Phrase.mark .comma)) brokenOff none with
      ⟨_ | ⟨⟨p, ps⟩, after⟩, noted⟩
    · rw [found] at some
      cases some
    · have runs := ((ends _ _ inParameters brokenOff none).1 _).2 found.symm
      exact ⟨p, ps, after, noted, runs, separated _ _ _ _ inParameters _ _ _ _ _ _ runs⟩
  · have evaluated : smallFile.parse.unit.toOption.any (fun _ => true) = true := by decide +kernel
    obtain ⟨u, read, -⟩ := exists_of_any evaluated
    obtain ⟨ns, noted, same, runs⟩ := files smallFile u read
    exact ⟨u, ns, noted, read, same, runs⟩

end SafeSubset.Grammar
