import SafeSubset.Proofs.Token.Spaced

/-! What the rules of a grammar mean: which values they read off which tokens,
and where they fail. A choice whose second alternative reads carries the failure
of the first, and a repetition the failure to go on, so a meaning says exactly
what is read. It mentions no source text: that of a span is the text of its
tokens. -/
namespace SafeSubset.Grammar

open Token (Kind Lexeme Spaced Holds lexemes width extent core)

/-- The values read where tokens start at an offset, before the rest of the
tokens, and the places without one. -/
structure Meaning (α : Type) where
  reads : (offset : Nat) → α → (taken rest : List Spaced) → Prop
  fails : (offset : Nat) → List Spaced → Prop

namespace Meaning

variable {α β : Type}

/-- One value after the other until there is none. -/
def Repeats (m : Meaning α) : Nat → List α → List Spaced → List Spaced → Prop
  | o, [], ts, rest => ts = [] ∧ m.fails o rest
  | o, a :: as, ts, rest =>
      ∃ us vs, ts = us ++ vs ∧ m.reads o a us (vs ++ rest) ∧ m.Repeats (o + width us) as vs rest

def seq (m : Meaning α) (k : Meaning β) : Meaning (α × β) where
  reads o p ts rest :=
    ∃ us vs, ts = us ++ vs ∧ m.reads o p.1 us (vs ++ rest) ∧ k.reads (o + width us) p.2 vs rest
  fails o ts :=
    m.fails o ts ∨ ∃ a us vs, ts = us ++ vs ∧ m.reads o a us vs ∧ k.fails (o + width us) vs

/-- A token for which `p` holds, and the value that it stands for. -/
def one (p : Nat → Spaced → α → Prop) : Meaning α where
  reads o a ts _ := ∃ t, ts = [t] ∧ p o t a
  fails o ts := ∀ t ∈ ts.head?, ∀ a, ¬ p o t a

end Meaning

/-- What rules mean when the nonterminals mean `call`. -/
def Rule.meaning {N : Type} {R : N → Type} (call : (n : N) → Meaning (R n)) :
    {α : Type} → Rule R α → Meaning α
  | _, token kind => .one fun o t l => t.kind = kind ∧ l = t.lexeme o
  | _, except kind => .one fun o t l => t.kind ≠ kind ∧ l = t.lexeme o
  | _, word meaning => .one fun _ t a =>
      t.kind = .identifier ∧ meaning (String.ofList t.chars) = .ok a
  | _, .call n => call n
  | _, map f r =>
      { reads o b ts rest := ∃ a, f a = b ∧ (meaning call r).reads o a ts rest
        fails := (meaning call r).fails }
  | _, seq r s => (meaning call r).seq (meaning call s)
  | _, choice r s =>
      { reads o a ts rest := (meaning call r).reads o a ts rest ∨
          (meaning call r).fails o (ts ++ rest) ∧ (meaning call s).reads o a ts rest
        fails o ts := (meaning call r).fails o ts ∧ (meaning call s).fails o ts }
  | _, optional r =>
      { reads o a ts rest := (∃ b, a = some b ∧ (meaning call r).reads o b ts rest) ∨
          a = none ∧ ts = [] ∧ (meaning call r).fails o rest
        fails _ _ := False }
  | _, many r =>
      { reads := (meaning call r).Repeats
        fails _ _ := False }
  | _, spanned r =>
      { reads o p ts rest := (meaning call r).reads o p.1 ts rest ∧ p.2 = extent o ts
        fails := (meaning call r).fails }
  | _, verbatim r =>
      { reads o s ts rest := (∃ a, (meaning call r).reads o a ts rest) ∧ s = String.ofList (core ts)
        fails := (meaning call r).fails }

/-- A rule that has to take a token takes one. -/
theorem Rule.taken_ne_nil {N : Type} {R : N → Type} {call : (n : N) → Meaning (R n)} {α : Type}
    (calls : ∀ {n o a ts rest}, (call n).reads o a ts rest → ts ≠ []) {r : Rule R α}
    (takes : r.consumes) {o : Nat} {a : α} {ts rest : List Spaced}
    (h : (r.meaning call).reads o a ts rest) : ts ≠ [] := by
  induction r generalizing o ts rest with
  | token _ | except _ | word _ =>
      obtain ⟨t, rfl, -⟩ := h
      simp
  | call n => exact calls h
  | map f r ih =>
      obtain ⟨a, -, h⟩ := h
      exact ih takes h
  | spanned r ih => exact ih takes h.1
  | verbatim r ih =>
      obtain ⟨⟨a, h⟩, -⟩ := h
      exact ih takes h
  | seq r s ihr ihs =>
      obtain ⟨us, vs, rfl, h, h'⟩ := h
      simp only [consumes, Bool.or_eq_true] at takes
      rcases takes with takes | takes
      · simp [ihr takes h]
      · simp [ihs takes h']
  | choice r s ihr ihs =>
      simp only [consumes, Bool.and_eq_true] at takes
      rcases h with h | ⟨-, h⟩
      · exact ihr takes.1 h
      · exact ihs takes.2 h
  | optional r | many r => cases takes

theorem Meaning.Repeats.mono {α : Type} {m k : Meaning α}
    (reads : ∀ {o a ts rest}, m.reads o a ts rest → k.reads o a ts rest)
    (fails : ∀ {o xs}, m.fails o xs → k.fails o xs) {o : Nat} {as : List α} {ts rest : List Spaced}
    (h : m.Repeats o as ts rest) : k.Repeats o as ts rest := by
  induction as generalizing o ts with
  | nil => exact ⟨h.1, fails h.2⟩
  | cons a as ih =>
      obtain ⟨us, vs, rfl, first, others⟩ := h
      exact ⟨us, vs, rfl, reads first, ih others⟩

/-- Rules mean more when the nonterminals do. -/
theorem Rule.meaning_mono {N : Type} {R : N → Type} {call call' : (n : N) → Meaning (R n)}
    (reads : ∀ {n o a ts rest}, (call n).reads o a ts rest → (call' n).reads o a ts rest)
    (fails : ∀ {n o xs}, (call n).fails o xs → (call' n).fails o xs) {α : Type} (r : Rule R α) :
    (∀ {o a ts rest}, (r.meaning call).reads o a ts rest → (r.meaning call').reads o a ts rest) ∧
      ∀ {o xs}, (r.meaning call).fails o xs → (r.meaning call').fails o xs := by
  induction r with
  | token _ | except _ | word _ => exact ⟨id, id⟩
  | call n => exact ⟨reads, fails⟩
  | map f r ih => exact ⟨fun ⟨a, same, h⟩ => ⟨a, same, ih.1 h⟩, ih.2⟩
  | seq r s ihr ihs =>
      constructor
      · rintro o p _ rest ⟨us, vs, rfl, h, h'⟩
        exact ⟨us, vs, rfl, ihr.1 h, ihs.1 h'⟩
      · rintro o xs (h | ⟨a, us, vs, rfl, h, h'⟩)
        · exact .inl (ihr.2 h)
        · exact .inr ⟨a, us, vs, rfl, ihr.1 h, ihs.2 h'⟩
  | choice r s ihr ihs =>
      exact ⟨fun h => h.imp ihr.1 fun h => ⟨ihr.2 h.1, ihs.1 h.2⟩, fun h => ⟨ihr.2 h.1, ihs.2 h.2⟩⟩
  | optional r ih =>
      exact ⟨fun h => h.imp (fun ⟨b, same, h⟩ => ⟨b, same, ih.1 h⟩)
        fun ⟨absent, same, h⟩ => ⟨absent, same, ih.2 h⟩, id⟩
  | many r ih => exact ⟨fun h => h.mono ih.1 ih.2, id⟩
  | spanned r ih => exact ⟨fun h => ⟨ih.1 h.1, h.2⟩, ih.2⟩
  | verbatim r ih => exact ⟨fun h => ⟨h.1.imp fun _ h => ih.1 h, h.2⟩, ih.2⟩

/-- A rule that has to take a token has not been read off none. -/
theorem Rule.split_ne_nil {N : Type} {R : N → Type} {source : Source} {split : Calls R} {α : Type}
    (advance : split.Advance) {r : Rule R α} (takes : r.consumes) {ls rest : List Lexeme} {a : α}
    {o : Nat} {ts : List Spaced}
    (found : r.split source split ls = some ⟨a, lexemes o ts, rest⟩) : ts ≠ [] := by
  rintro rfl
  exact (split_advances advance found).2 takes rfl

/-- What is found where the tokens `xs` start agrees with a meaning. -/
inductive Meaning.Explains {α : Type} (m : Meaning α) (o : Nat) (xs : List Spaced) :
    Option (Reading α) → Prop where
  | fails (failure : m.fails o xs) : m.Explains o xs none
  | reads {a : α} {ts rest : List Spaced} (same : xs = ts ++ rest) (reading : m.reads o a ts rest) :
      m.Explains o xs (some ⟨a, lexemes o ts, lexemes (o + width ts) rest⟩)

section Explains

variable {N : Type} {R : N → Type} {source : Source} {call : (n : N) → Meaning (R n)}
  {split : Calls R} {α β : Type}

theorem Meaning.Explains.map {m : Meaning α} {k : Meaning β} {o : Nat} {xs : List Spaced}
    {found : Option (Reading α)} {f : α → β} (explains : m.Explains o xs found)
    (reads : ∀ {a ts rest}, xs = ts ++ rest → m.reads o a ts rest → k.reads o (f a) ts rest)
    (fails : m.fails o xs → k.fails o xs) : k.Explains o xs (found.map (.map f)) := by
  cases explains with
  | fails failure => exact .fails (fails failure)
  | reads same reading => exact .reads same (reads same reading)

/-- A token is found or not by a look at it. -/
theorem Meaning.one_explains {p : Nat → Spaced → α → Prop} {o : Nat} {xs : List Spaced}
    {split : List Lexeme → Option (Reading α)} (nil : split [] = none)
    (cons : ∀ t rest, (∃ a, p o t a ∧ split (t.lexeme o :: rest) = some ⟨a, [t.lexeme o], rest⟩) ∨
      (∀ a, ¬ p o t a) ∧ split (t.lexeme o :: rest) = none) :
    (Meaning.one p).Explains o xs (split (lexemes o xs)) := by
  cases xs with
  | nil =>
      rw [lexemes, nil]
      exact .fails (by simp [one])
  | cons t xs =>
      rw [lexemes]
      rcases cons t (lexemes (o + Source.byteLength t.text) xs) with ⟨a, holds, found⟩ | ⟨no, found⟩
      · rw [found]
        have reading := Explains.reads (m := one p) (o := o) (a := a)
          (show t :: xs = [t] ++ xs from rfl) ⟨t, rfl, holds⟩
        simpa [lexemes, Token.width_cons] using reading
      · rw [found]
        refine .fails fun u hu a => ?_
        cases hu
        exact no a

theorem Meaning.repeats_explains {m : Meaning α} {read : List Lexeme → Option (Reading α)}
    (shorter : ∀ {ls x}, read ls = some x → x.rest.length < ls.length) {o : Nat}
    {xs : List Spaced} (here : m.Explains o xs (read (lexemes o xs)))
    (behind : ∀ o' ys, (∃ us, xs = us ++ ys ∧ o' = o + width us) → ys.length < xs.length →
      m.Explains o' ys (read (lexemes o' ys))) (limit : Nat) (enough : xs.length < limit) :
    ∃ as ts rest, xs = ts ++ rest ∧ m.Repeats o as ts rest ∧
      Reading.many read limit (lexemes o xs) = ⟨as, lexemes o ts, lexemes (o + width ts) rest⟩ := by
  induction limit generalizing o xs with
  | zero => omega
  | succ limit ih =>
      unfold Reading.many
      generalize found : read (lexemes o xs) = first at here
      cases here with
      | fails failure => exact ⟨[], [], xs, rfl, ⟨rfl, failure⟩, rfl⟩
      | @reads a us ys same reading =>
          have less := shorter found
          simp only [Token.length_lexemes] at less
          obtain ⟨as, vs, rest, rfl, others, tail⟩ := ih (behind _ ys ⟨us, same, rfl⟩ less)
            (fun o' zs within h => by
              obtain ⟨vs, split, place⟩ := within
              refine behind o' zs ⟨us ++ vs, ?_, ?_⟩ (Nat.lt_trans h less)
              · rw [same, split, List.append_assoc]
              · simp [place, Nat.add_assoc]) (by omega)
          refine ⟨a :: as, us ++ vs, rest, by rw [same, List.append_assoc],
            ⟨us, vs, rfl, reading, others⟩, ?_⟩
          dsimp only
          rw [tail, Token.lexemes_append o us vs, Token.width_append, ← Nat.add_assoc]
          rfl

/-- What a rule reads where the tokens `xs` start is explained by its meaning. -/
abbrev Rule.Explained (source : Source) (call : (n : N) → Meaning (R n)) (split : Calls R)
    (r : Rule R α) (o : Nat) (xs : List Spaced) : Prop :=
  (r.meaning call).Explains o xs (r.split source split (lexemes o xs))

namespace Rule

variable {r : Rule R α} {o : Nat} {xs : List Spaced}

theorem explained_token (kind : Kind) : Explained source call split (token kind) o xs := by
  refine Meaning.one_explains rfl fun t rest => ?_
  by_cases h : t.kind = kind
  · exact .inl ⟨_, ⟨h, rfl⟩, if_pos h⟩
  · exact .inr ⟨fun _ p => h p.1, if_neg h⟩

theorem explained_except (kind : Kind) : Explained source call split (except kind) o xs := by
  refine Meaning.one_explains rfl fun t rest => ?_
  by_cases h : t.kind = kind
  · exact .inr ⟨fun _ p => p.1 h, if_pos h⟩
  · exact .inl ⟨_, ⟨h, rfl⟩, if_neg h⟩

theorem explained_word (meaning : String → Except Misfit α) :
    Explained source call split (word meaning) o xs := by
  refine Meaning.one_explains rfl fun t rest => ?_
  by_cases h : t.kind = .identifier
  · cases found : meaning (String.ofList t.chars) with
    | ok a => exact .inl ⟨a, ⟨h, rfl⟩, by simp [Rule.split, Spaced.lexeme, h, found]⟩
    | error m => exact .inr ⟨fun _ p => by simp at p, by simp [Rule.split, Spaced.lexeme, h, found]⟩
  · exact .inr ⟨fun _ p => h p.1, if_neg h⟩

theorem explained_optional (inner : r.Explained source call split o xs) :
    (optional r).Explained source call split o xs := by
  unfold Explained at inner ⊢
  unfold Rule.split
  generalize r.split source split (lexemes o xs) = found at inner ⊢
  cases inner with
  | fails failure =>
      have stay := Meaning.Explains.reads (m := (optional r).meaning call) (o := o)
        (show xs = [] ++ xs from rfl) (.inr ⟨rfl, rfl, failure⟩)
      exact stay
  | reads same reading => exact .reads same (.inl ⟨_, rfl, reading⟩)

theorem explained_choice {s : Rule R α} (first : r.Explained source call split o xs)
    (second : s.Explained source call split o xs) :
    (choice r s).Explained source call split o xs := by
  unfold Explained at first second ⊢
  unfold Rule.split
  generalize r.split source split (lexemes o xs) = found at first ⊢
  generalize s.split source split (lexemes o xs) = found' at second ⊢
  cases first with
  | reads same reading => exact .reads same (.inl reading)
  | fails failure =>
      cases second with
      | fails failure' => exact .fails ⟨failure, failure'⟩
      | reads same reading => exact .reads same (.inr ⟨same ▸ failure, reading⟩)

/-- The second rule is only asked behind what the first one has read. -/
theorem explained_seq {s : Rule R β} (first : r.Explained source call split o xs)
    (second : ∀ us ys, xs = us ++ ys →
      (∃ a, r.split source split (lexemes o xs) = some ⟨a, lexemes o us, lexemes (o + width us) ys⟩) →
        s.Explained source call split (o + width us) ys) :
    (seq r s).Explained source call split o xs := by
  unfold Explained at first second ⊢
  unfold Rule.split
  generalize found : r.split source split (lexemes o xs) = x at first
  cases first with
  | fails failure => exact .fails (.inl failure)
  | @reads a us ys same reading =>
      subst same
      have behind := second us ys rfl ⟨a, found⟩
      dsimp only
      generalize s.split source split (lexemes (o + width us) ys) = y at behind ⊢
      cases behind with
      | fails failure => exact .fails (.inr ⟨a, us, ys, rfl, reading, failure⟩)
      | @reads b vs rest same reading' =>
          subst same
          have both := Meaning.Explains.reads (m := (seq r s).meaning call) (o := o)
            (a := (a, b)) (List.append_assoc us vs rest).symm ⟨us, vs, rfl, reading, reading'⟩
          rwa [Token.lexemes_append o us vs, Token.width_append, ← Nat.add_assoc] at both

theorem explained_many (advance : split.Advance) (takes : r.consumes)
    (here : r.Explained source call split o xs)
    (behind : ∀ us ys, xs = us ++ ys → ys.length < xs.length →
      r.Explained source call split (o + width us) ys) :
    (many r).Explained source call split o xs := by
  obtain ⟨as, ts, rest, same, reading, found⟩ := Meaning.repeats_explains
    (split_shorter advance takes) here
    (fun o' ys within less => by
      obtain ⟨us, same, rfl⟩ := within
      exact behind us ys same less)
    (xs.length + 1) (by omega)
  unfold Explained Rule.split
  simp only [Token.length_lexemes, found]
  exact .reads same reading

theorem explained_spanned (advance : split.Advance) (takes : r.consumes)
    (inner : r.Explained source call split o xs) :
    (spanned r).Explained source call split o xs := by
  unfold Explained at inner ⊢
  unfold Rule.split
  generalize found : r.split source split (lexemes o xs) = x at inner
  cases inner with
  | fails failure => exact .fails failure
  | reads same reading =>
      have some := split_ne_nil advance takes found
      exact .reads same ⟨reading, by rw [Token.spanOf_lexemes o some]⟩

theorem explained_verbatim (advance : split.Advance) (takes : r.consumes)
    (holds : Holds source o xs) (inner : r.Explained source call split o xs) :
    (verbatim r).Explained source call split o xs := by
  unfold Explained at inner ⊢
  unfold Rule.split
  generalize found : r.split source split (lexemes o xs) = x at inner
  cases inner with
  | fails failure => exact .fails failure
  | @reads a ts rest same reading =>
      have some := split_ne_nil advance takes found
      subst same
      refine .reads rfl ⟨⟨a, reading⟩, ?_⟩
      rw [Token.spanOf_lexemes o some, holds.left.slice some]

end Rule

/-- What a rule reads is explained by its meaning, if that holds of the calls
that it makes here and behind. -/
theorem Rule.explains (advance : split.Advance) {r : Rule R α} (proper : r.proper) {o : Nat}
    {xs : List Spaced} (holds : Holds source o xs)
    (here : ∀ n ∈ r.leading, (call n).Explains o xs (split n (lexemes o xs)))
    (behind : ∀ n o' ys, Holds source o' ys → ys.length < xs.length →
      (call n).Explains o' ys (split n (lexemes o' ys))) :
    r.Explained source call split o xs := by
  induction r generalizing o xs with
  | token kind => exact explained_token kind
  | except kind => exact explained_except kind
  | word meaning => exact explained_word meaning
  | call n => exact here n (by simp [leading])
  | map f r ih =>
      exact (ih proper holds here behind).map (fun _ reading => ⟨_, rfl, reading⟩) id
  | optional r ih => exact explained_optional (ih proper holds here behind)
  | choice r s ihr ihs =>
      simp only [Rule.proper, Bool.and_eq_true] at proper
      simp only [leading, List.mem_append] at here
      exact explained_choice (ihr proper.1 holds (fun n h => here n (.inl h)) behind)
        (ihs proper.2 holds (fun n h => here n (.inr h)) behind)
  | seq r s ihr ihs =>
      simp only [Rule.proper, Bool.and_eq_true] at proper
      simp only [leading, List.mem_append] at here
      refine explained_seq (ihr proper.1 holds (fun n h => here n (.inl h)) behind) ?_
      rintro us ys rfl ⟨a, found⟩
      refine ihs proper.2 holds.right (fun n h => ?_) fun n o' zs h less =>
        behind n o' zs h (by rw [List.length_append]; omega)
      -- The second rule leads only where the first one has read nothing.
      cases us with
      | nil =>
          have quiet := consumes_eq_false advance found rfl
          exact here n (.inr (by simp [quiet, h]))
      | cons t us => exact behind n _ ys holds.right (by rw [List.length_append, List.length_cons]; omega)
  | many r ih =>
      simp only [Rule.proper, Bool.and_eq_true] at proper
      refine explained_many advance proper.1 (ih proper.2 holds here behind) ?_
      rintro us ys rfl less
      exact ih proper.2 holds.right (fun n _ => behind n _ ys holds.right less)
        fun n o' zs holds' less' => behind n o' zs holds' (Nat.lt_trans less' less)
  | spanned r ih =>
      simp only [Rule.proper, Bool.and_eq_true] at proper
      exact explained_spanned advance proper.1 (ih proper.2 holds here behind)
  | verbatim r ih =>
      simp only [Rule.proper, Bool.and_eq_true] at proper
      exact explained_verbatim advance proper.1 holds (ih proper.2 holds here behind)

end Explains

/-- What a meaning says is found. -/
structure Meaning.Decides {α : Type} (m : Meaning α) (source : Source)
    (split : List Lexeme → Option (Reading α)) : Prop where
  reads : ∀ {o a ts rest}, Holds source o (ts ++ rest) → m.reads o a ts rest →
    split (lexemes o (ts ++ rest)) = some ⟨a, lexemes o ts, lexemes (o + width ts) rest⟩
  fails : ∀ {o xs}, Holds source o xs → m.fails o xs → split (lexemes o xs) = none

section Decides

variable {N : Type} {R : N → Type} {source : Source} {call : (n : N) → Meaning (R n)}
  {split : Calls R} {α β : Type}

theorem Meaning.one_decides {p : Nat → Spaced → α → Prop}
    {split : List Lexeme → Option (Reading α)} (nil : split [] = none)
    (found : ∀ o t a rest, p o t a → split (t.lexeme o :: rest) = some ⟨a, [t.lexeme o], rest⟩)
    (missing : ∀ o t rest, (∀ a, ¬ p o t a) → split (t.lexeme o :: rest) = none) :
    (Meaning.one p).Decides source split where
  reads := by
    rintro o a _ rest - ⟨t, rfl, holds⟩
    simp [lexemes, found o t a _ holds, Token.width_cons]
  fails := by
    rintro o (_ | ⟨t, xs⟩) - failure
    · exact nil
    · exact missing o t _ fun a => failure t rfl a

theorem Meaning.repeats_decides {m : Meaning α} {read : List Lexeme → Option (Reading α)}
    (decides : m.Decides source read)
    (shorter : ∀ {ls x}, read ls = some x → x.rest.length < ls.length) {as : List α} {o : Nat}
    {ts rest : List Spaced} (holds : Holds source o (ts ++ rest)) (h : m.Repeats o as ts rest)
    (limit : Nat) (enough : (ts ++ rest).length < limit) :
    Reading.many read limit (lexemes o (ts ++ rest)) =
      ⟨as, lexemes o ts, lexemes (o + width ts) rest⟩ := by
  induction as generalizing o ts limit with
  | nil =>
      obtain ⟨rfl, failure⟩ := h
      cases limit with
      | zero => omega
      | succ limit =>
          rw [List.nil_append] at holds ⊢
          unfold Reading.many
          rw [decides.fails holds failure]
          rfl
  | cons a as ih =>
      obtain ⟨us, vs, rfl, reading, others⟩ := h
      rw [List.append_assoc] at holds enough ⊢
      cases limit with
      | zero => omega
      | succ limit =>
          have found := decides.reads holds reading
          have less := shorter found
          rw [Token.length_lexemes, Token.length_lexemes] at less
          have tail := ih holds.right others limit (by omega)
          unfold Reading.many
          rw [found]
          dsimp only
          rw [tail, Token.lexemes_append o us vs, Token.width_append, ← Nat.add_assoc]
          rfl

/-- A rule reads what its meaning says. -/
abbrev Rule.Decided (source : Source) (call : (n : N) → Meaning (R n)) (split : Calls R)
    (r : Rule R α) : Prop :=
  (r.meaning call).Decides source (r.split source split)

namespace Rule

variable {r : Rule R α}

theorem decided_token (kind : Kind) : Decided source call split (token kind) :=
  Meaning.one_decides rfl
    (fun o t a rest ⟨h, same⟩ => by
      subst same
      exact if_pos h)
    fun o t rest no => if_neg fun h => no _ ⟨h, rfl⟩

theorem decided_except (kind : Kind) : Decided source call split (except kind) :=
  Meaning.one_decides rfl
    (fun o t a rest ⟨h, same⟩ => by
      subst same
      exact if_neg h)
    fun o t rest no => if_pos (by
      by_contra h
      exact no _ ⟨h, rfl⟩)

theorem decided_word (meaning : String → Except Misfit α) :
    Decided source call split (word meaning) := by
  refine Meaning.one_decides rfl (fun o t a rest ⟨h, found⟩ => ?_) fun o t rest no => ?_
  · simp [Rule.split, Spaced.lexeme, h, found]
  · by_cases h : t.kind = .identifier
    · cases found : meaning (String.ofList t.chars) with
      | ok a => exact absurd ⟨h, found⟩ (no a)
      | error m => simp [Rule.split, Spaced.lexeme, h, found]
    · exact if_neg h

theorem decided_map (f : α → β) (inner : r.Decided source call split) :
    (map f r).Decided source call split where
  reads := by
    rintro o _ ts rest holds ⟨a, rfl, reading⟩
    simp [Rule.split, inner.reads holds reading, Reading.map]
  fails holds failure := by simp [Rule.split, inner.fails holds failure]

theorem decided_optional (inner : r.Decided source call split) :
    (optional r).Decided source call split where
  reads := by
    rintro o _ ts rest holds (⟨b, rfl, reading⟩ | ⟨rfl, rfl, failure⟩)
    · simp [Rule.split, inner.reads holds reading, Reading.map]
    · rw [List.nil_append] at holds ⊢
      simp [Rule.split, inner.fails holds failure, Reading.stay, lexemes]
  fails _ := False.elim

theorem decided_choice {s : Rule R α} (first : r.Decided source call split)
    (second : s.Decided source call split) : (choice r s).Decided source call split where
  reads := by
    rintro o a ts rest holds (reading | ⟨failure, reading⟩)
    · simp only [Rule.split, first.reads holds reading]
    · simp only [Rule.split, first.fails holds failure, second.reads holds reading]
  fails := by
    rintro o xs holds ⟨failure, failure'⟩
    simp only [Rule.split, first.fails holds failure, second.fails holds failure']

theorem decided_seq {s : Rule R β} (first : r.Decided source call split)
    (second : s.Decided source call split) : (seq r s).Decided source call split where
  reads := by
    rintro o ⟨a, b⟩ _ rest holds ⟨us, vs, rfl, reading, reading'⟩
    rw [List.append_assoc] at holds ⊢
    simp only [Rule.split, first.reads holds reading, second.reads holds.right reading']
    rw [Token.lexemes_append o us vs, Token.width_append, ← Nat.add_assoc]
    rfl
  fails := by
    rintro o _ holds (failure | ⟨a, us, vs, rfl, reading, failure⟩)
    · simp only [Rule.split, first.fails holds failure]
    · simp only [Rule.split, first.reads holds reading, second.fails holds.right failure,
        Option.map_none]

theorem decided_many (advance : split.Advance) (takes : r.consumes)
    (inner : r.Decided source call split) : (many r).Decided source call split where
  reads := by
    intro o as ts rest holds reading
    have found := Meaning.repeats_decides inner (split_shorter advance takes) holds reading
      ((ts ++ rest).length + 1) (by omega)
    simp only [Rule.split, Token.length_lexemes, found]
  fails _ := False.elim

theorem decided_spanned (advance : split.Advance) (takes : r.consumes)
    (inner : r.Decided source call split) : (spanned r).Decided source call split where
  reads := by
    rintro o ⟨a, place⟩ ts rest holds ⟨reading, rfl⟩
    have found := inner.reads holds reading
    have some := split_ne_nil advance takes found
    simp only [Rule.split, found, Option.map_some, Reading.map, Token.spanOf_lexemes o some]
  fails holds failure := by simp [Rule.split, inner.fails holds failure]

theorem decided_verbatim (advance : split.Advance) (takes : r.consumes)
    (inner : r.Decided source call split) : (verbatim r).Decided source call split where
  reads := by
    rintro o _ ts rest holds ⟨⟨a, reading⟩, rfl⟩
    have found := inner.reads holds reading
    have some := split_ne_nil advance takes found
    simp only [Rule.split, found, Option.map_some, Reading.map, Token.spanOf_lexemes o some,
      holds.left.slice some]
  fails holds failure := by simp [Rule.split, inner.fails holds failure]

end Rule

/-- A rule reads what its meaning says if the calls do. -/
theorem Rule.decides (advance : split.Advance) {r : Rule R α} (proper : r.proper)
    (calls : ∀ n, (call n).Decides source (split n)) : r.Decided source call split := by
  induction r with
  | token kind => exact decided_token kind
  | except kind => exact decided_except kind
  | word meaning => exact decided_word meaning
  | call n => exact calls n
  | map f r ih => exact decided_map f (ih proper)
  | optional r ih => exact decided_optional (ih proper)
  | choice r s ihr ihs =>
      simp only [Rule.proper, Bool.and_eq_true] at proper
      exact decided_choice (ihr proper.1) (ihs proper.2)
  | seq r s ihr ihs =>
      simp only [Rule.proper, Bool.and_eq_true] at proper
      exact decided_seq (ihr proper.1) (ihs proper.2)
  | many r ih =>
      simp only [Rule.proper, Bool.and_eq_true] at proper
      exact decided_many advance proper.1 (ih proper.2)
  | spanned r ih =>
      simp only [Rule.proper, Bool.and_eq_true] at proper
      exact decided_spanned advance proper.1 (ih proper.2)
  | verbatim r ih =>
      simp only [Rule.proper, Bool.and_eq_true] at proper
      exact decided_verbatim advance proper.1 (ih proper.2)

end Decides
end SafeSubset.Grammar
