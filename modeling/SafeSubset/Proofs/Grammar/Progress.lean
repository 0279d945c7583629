import SafeSubset.Grammar.SourceUnit
import Mathlib.Data.List.Basic

/-! What a rule reads, as a function of the remaining tokens alone. A reading
carries neither failures nor an index, and it says which tokens it takes: every
nonterminal takes at least one. That bounds the depth of calls, so reading at
the depth that a phrase is given is reading without a limit. -/
namespace SafeSubset.Grammar

open Token (Kind Lexeme)

/-- From the start of the first token to the end of the last. -/
def spanOf (ls : List Lexeme) : Span :=
  ⟨(ls.head?.map (·.span.start)).getD 0, (ls.getLast?.map (·.span.stop)).getD 0⟩

/-- What is read off the front of some tokens: a value, the tokens it takes and
those it leaves. -/
structure Reading (α : Type) where
  value : α
  taken : List Lexeme
  rest : List Lexeme

namespace Reading

variable {α β : Type}

def map (f : α → β) (x : Reading α) : Reading β := ⟨f x.value, x.taken, x.rest⟩

/-- The next value is read off what this one leaves. -/
def followedBy (x : Reading α) (y : Reading β) : Reading (α × β) :=
  ⟨(x.value, y.value), x.taken ++ y.taken, y.rest⟩

/-- Nothing is read. -/
def stay (a : α) (ls : List Lexeme) : Reading α := ⟨a, [], ls⟩

def many (split : List Lexeme → Option (Reading α)) :
    (limit : Nat) → List Lexeme → Reading (List α)
  | 0, ls => stay [] ls
  | limit + 1, ls =>
      match split ls with
      | none => stay [] ls
      | some x => (x.followedBy (many split limit x.rest)).map fun p => p.1 :: p.2

/-- The tokens of a reading of `ls` are those of `ls`. -/
def Of (x : Reading α) (ls : List Lexeme) : Prop := ls = x.taken ++ x.rest

end Reading

/-- Reads the nonterminals off the front of some tokens. -/
abbrev Calls {N : Type} (R : N → Type) := (n : N) → List Lexeme → Option (Reading (R n))

/-- Every reading takes a token. -/
def Calls.Advance {N : Type} {R : N → Type} (call : Calls R) : Prop :=
  ∀ n ls x, call n ls = some x → x.Of ls ∧ x.taken ≠ []

/-- The place behind the tokens `taken`, before `rest`. -/
def Cursor.past (c : Cursor) (taken rest : List Lexeme) : Cursor :=
  { c with
    rest
    index := c.index + taken.length
    stop := (taken.getLast?.map (·.span.stop)).getD c.stop }

namespace Rule

variable {N : Type} {R : N → Type} {α : Type}

/-- Whether the rule takes a token whenever it reads a value. -/
def consumes : {α : Type} → Rule R α → Bool
  | _, token _ | _, except _ | _, word _ | _, call _ => true
  | _, map _ r | _, spanned r | _, verbatim r => r.consumes
  | _, seq r s => r.consumes || s.consumes
  | _, choice r s => r.consumes && s.consumes
  | _, optional _ | _, many _ => false

/-- Whether all that is repeated or has a span takes a token. -/
def proper : {α : Type} → Rule R α → Bool
  | _, token _ | _, except _ | _, word _ | _, call _ => true
  | _, map _ r | _, optional r => r.proper
  | _, seq r s | _, choice r s => r.proper && s.proper
  | _, many r | _, spanned r | _, verbatim r => r.consumes && r.proper

/-- The nonterminals that may be called before a token has been taken. -/
def leading : {α : Type} → Rule R α → List N
  | _, token _ | _, except _ | _, word _ => []
  | _, call n => [n]
  | _, map _ r | _, optional r | _, many r | _, spanned r | _, verbatim r => r.leading
  | _, seq r s => r.leading ++ if r.consumes then [] else s.leading
  | _, choice r s => r.leading ++ s.leading

/-- What a rule reads off the front of some tokens of a source text. -/
def split (source : Source) (call : Calls R) :
    {α : Type} → Rule R α → List Lexeme → Option (Reading α)
  | _, token kind => fun
      | l :: rest => if l.kind = kind then some ⟨l, [l], rest⟩ else none
      | [] => none
  | _, except kind => fun
      | l :: rest => if l.kind = kind then none else some ⟨l, [l], rest⟩
      | [] => none
  | _, word meaning => fun
      | l :: rest =>
          if l.kind = .identifier then
            match meaning l.text with
            | .ok a => some ⟨a, [l], rest⟩
            | .error _ => none
          else none
      | [] => none
  | _, .call n => call n
  | _, map f r => fun ls => (split source call r ls).map (.map f)
  | _, seq r s => fun ls =>
      match split source call r ls with
      | none => none
      | some x => (split source call s x.rest).map x.followedBy
  | _, choice r s => fun ls =>
      match split source call r ls with
      | none => split source call s ls
      | some x => some x
  | _, optional r => fun ls =>
      match split source call r ls with
      | none => some (.stay none ls)
      | some x => some (x.map some)
  | _, many r => fun ls => some (.many (split source call r) (ls.length + 1) ls)
  | _, spanned r => fun ls =>
      (split source call r ls).map fun x => x.map fun a => (a, spanOf x.taken)
  | _, verbatim r => fun ls =>
      (split source call r ls).map fun x =>
        x.map fun _ => String.ofList (Source.slice source (spanOf x.taken))

end Rule

section Advance

variable {N : Type} {R : N → Type} {source : Source} {call : Calls R} {α : Type}

theorem Reading.many_of {split : List Lexeme → Option (Reading α)}
    (of : ∀ {ls x}, split ls = some x → x.Of ls) (limit : Nat) (ls : List Lexeme) :
    (Reading.many split limit ls).Of ls := by
  induction limit generalizing ls with
  | zero => rfl
  | succ limit ih =>
      unfold Reading.many
      cases read : split ls with
      | none => rfl
      | some x =>
          have tail := ih x.rest
          unfold Reading.Of at tail ⊢
          simp only [Reading.map, Reading.followedBy, List.append_assoc, ← tail]
          exact of read

/-- A rule reads what stands in front. It takes a token if it has to. -/
theorem Reading.Of.followedBy {β : Type} {x : Reading α} {y : Reading β} {ls : List Lexeme}
    (first : x.Of ls) (second : y.Of x.rest) : (x.followedBy y).Of ls := by
  unfold Reading.Of at *
  simp [Reading.followedBy, ← second, ← first]

theorem Rule.split_seq_eq_some {β : Type} {r : Rule R α} {s : Rule R β} {ls : List Lexeme}
    {x : Reading (α × β)} : (seq r s).split source call ls = some x ↔
      ∃ y z, r.split source call ls = some y ∧ s.split source call y.rest = some z ∧
        y.followedBy z = x := by
  simp only [split]
  cases r.split source call ls <;> simp [Option.map_eq_some_iff]

theorem Rule.split_choice_eq_some {r s : Rule R α} {ls : List Lexeme} {x : Reading α} :
    (choice r s).split source call ls = some x ↔ r.split source call ls = some x ∨
      r.split source call ls = none ∧ s.split source call ls = some x := by
  simp only [split]
  cases r.split source call ls <;> simp

theorem Rule.split_advances (advance : call.Advance) {r : Rule R α} {ls : List Lexeme}
    {x : Reading α} (h : r.split source call ls = some x) :
    x.Of ls ∧ (r.consumes → x.taken ≠ []) := by
  induction r generalizing ls with
  | token kind | except kind =>
      cases ls with
      | nil => cases h
      | cons l rest =>
          simp only [split] at h
          split at h <;> cases h
          exact ⟨rfl, fun _ => by simp⟩
  | word meaning =>
      cases ls with
      | nil => cases h
      | cons l rest =>
          simp only [split] at h
          repeat (split at h <;> try cases h)
          exact ⟨rfl, fun _ => by simp⟩
  | call n =>
      obtain ⟨of, some⟩ := advance n ls x h
      exact ⟨of, fun _ => some⟩
  | map f r ih | spanned r ih | verbatim r ih =>
      obtain ⟨y, read, rfl⟩ := Option.map_eq_some_iff.1 h
      exact ih read
  | seq r s ihr ihs =>
      obtain ⟨y, z, first, second, rfl⟩ := split_seq_eq_some.1 h
      obtain ⟨ofy, takes⟩ := ihr first
      obtain ⟨ofz, takes'⟩ := ihs second
      refine ⟨ofy.followedBy ofz, fun c => ?_⟩
      rcases Bool.or_eq_true_iff.1 c with c | c
      · simp [Reading.followedBy, takes c]
      · simp [Reading.followedBy, takes' c]
  | choice r s ihr ihs =>
      simp only [consumes, Bool.and_eq_true]
      rcases split_choice_eq_some.1 h with first | ⟨-, second⟩
      · obtain ⟨of, takes⟩ := ihr first
        exact ⟨of, fun c => takes c.1⟩
      · obtain ⟨of, takes⟩ := ihs second
        exact ⟨of, fun c => takes c.2⟩
  | optional r ih =>
      simp only [split] at h
      split at h <;> cases h
      · exact ⟨rfl, fun c => by simp [consumes] at c⟩
      · next y first => exact ⟨(ih first).1, fun c => by simp [consumes] at c⟩
  | many r ih =>
      cases h
      exact ⟨Reading.many_of (fun read => (ih read).1) _ _, fun c => by simp [consumes] at c⟩

/-- A rule that has read something off no tokens is none that has to take one. -/
theorem Rule.consumes_eq_false (advance : call.Advance) {r : Rule R α} {ls : List Lexeme}
    {x : Reading α} (h : r.split source call ls = some x) (still : x.taken = []) :
    r.consumes = false :=
  Bool.eq_false_iff.2 fun takes => (split_advances advance h).2 takes still

theorem Reading.Of.length {x : Reading α} {ls : List Lexeme} (of : x.Of ls) :
    x.taken.length + x.rest.length = ls.length := by
  rw [of, List.length_append]

/-- What a consuming rule leaves is shorter. -/
theorem Rule.split_shorter (advance : call.Advance) {r : Rule R α} (takes : r.consumes)
    {ls : List Lexeme} {x : Reading α} (h : r.split source call ls = some x) :
    x.rest.length < ls.length := by
  obtain ⟨of, some⟩ := split_advances advance h
  have := List.length_pos_iff.2 (some takes)
  have := of.length
  omega

theorem Reading.many_congr {split split' : List Lexeme → Option (Reading α)}
    (shorter : ∀ {ls x}, split ls = some x → x.rest.length < ls.length) {ls : List Lexeme}
    (here : split ls = split' ls) (behind : ∀ ms, ms.length < ls.length → split ms = split' ms)
    (limit : Nat) : Reading.many split limit ls = Reading.many split' limit ls := by
  induction limit generalizing ls with
  | zero => rfl
  | succ limit ih =>
      unfold many
      rw [← here]
      cases read : split ls with
      | none => rfl
      | some x =>
          have less := shorter read
          have tail := ih (behind x.rest less) fun ms h => behind ms (Nat.lt_trans h less)
          simp only [tail]

/-- Calls matter at the place itself only if they lead, and otherwise behind it. -/
theorem Rule.split_congr {call' : Calls R} (advance : call.Advance) {r : Rule R α}
    (proper : r.proper) {ls : List Lexeme} (here : ∀ n ∈ r.leading, call n ls = call' n ls)
    (behind : ∀ ms, ms.length < ls.length → ∀ n, call n ms = call' n ms) :
    r.split source call ls = r.split source call' ls := by
  induction r generalizing ls with
  | token kind | except kind | word meaning => cases ls <;> rfl
  | call n => exact here n (by simp [leading])
  | map f r ih => simp only [split, ih proper here behind]
  | optional r ih => simp only [split, ih proper here behind]
  | spanned r ih | verbatim r ih =>
      simp only [Rule.proper, Bool.and_eq_true] at proper
      simp only [split, ih proper.2 here behind]
  | choice r s ihr ihs =>
      simp only [Rule.proper, Bool.and_eq_true] at proper
      simp only [leading, List.mem_append] at here
      simp only [split, ihr proper.1 (fun n h => here n (.inl h)) behind,
        ihs proper.2 (fun n h => here n (.inr h)) behind]
  | seq r s ihr ihs =>
      simp only [Rule.proper, Bool.and_eq_true] at proper
      simp only [leading, List.mem_append] at here
      simp only [split, ← ihr proper.1 (fun n h => here n (.inl h)) behind]
      cases first : r.split source call ls with
      | none => rfl
      | some x =>
          have of := (split_advances advance first).1
          have length := of.length
          by_cases still : x.taken = []
          · have quiet := consumes_eq_false advance first still
            have same : x.rest = ls := by rw [of, still, List.nil_append]
            simp only [same, ihs proper.2 (fun n h => here n (.inr (by simp [quiet, h]))) behind]
          · have := List.length_pos_iff.2 still
            have second : s.split source call x.rest = s.split source call' x.rest :=
              ihs proper.2 (fun n _ => behind x.rest (by omega) n) fun ms h => behind ms (by omega)
            simp only [second]
  | many r ih =>
      simp only [Rule.proper, Bool.and_eq_true] at proper
      have inner : Reading.many (r.split source call) (ls.length + 1) ls =
          Reading.many (r.split source call') (ls.length + 1) ls := by
        refine Reading.many_congr (split_shorter advance proper.1) (ih proper.2 here behind) ?_ _
        exact fun ms h => ih proper.2 (fun n _ => behind ms h n) fun ms' h' =>
          behind ms' (Nat.lt_trans h' h)
      simp only [split, inner]

end Advance

section Reader

variable {α : Type}

@[simp] theorem Cursor.past_rest (c : Cursor) (taken rest : List Lexeme) :
    (c.past taken rest).rest = rest := rfl

theorem Cursor.past_past (c : Cursor) (taken middle next rest : List Lexeme) :
    (c.past taken middle).past next rest = c.past (taken ++ next) rest := by
  cases h : next.getLast? <;>
    simp [past, Nat.add_assoc, List.getLast?_append, h]

/-- The span from here to behind what has been taken is that of the tokens. -/
theorem Cursor.spanTo_past {c : Cursor} {taken rest : List Lexeme} (of : c.rest = taken ++ rest)
    (some : taken ≠ []) : c.spanTo (c.past taken rest) = spanOf taken := by
  have last := List.getLast?_eq_some_getLast some
  cases taken with
  | nil => contradiction
  | cons l ls => simp only [spanTo, spanOf, past, here, of, last, List.cons_append, List.head?_cons,
      Option.map_some, Option.getD_some]

/-- What a reader reads is a reading of the remaining tokens. -/
def Agree (c : Cursor) (found : Option (α × Cursor)) (reading : Option (Reading α)) : Prop :=
  found = reading.map fun x => (x.value, c.past x.taken x.rest)

/-- Where they agree, both have found nothing or both the same. -/
theorem Agree.cases {c : Cursor} {outcome : Option (α × Cursor) × Register}
    {reading : Option (Reading α)} (agree : Agree c outcome.1 reading) :
    (∃ noted, outcome = (none, noted) ∧ reading = none) ∨
      ∃ x noted, outcome = (some (x.value, c.past x.taken x.rest), noted) ∧ reading = some x := by
  obtain ⟨found, noted⟩ := outcome
  cases reading with
  | none =>
      obtain rfl : found = none := agree
      exact .inl ⟨noted, rfl, rfl⟩
  | some x =>
      obtain rfl : found = some (x.value, c.past x.taken x.rest) := agree
      exact .inr ⟨x, noted, rfl, rfl⟩

variable {N : Type} {R : N → Type} {source : Source} {readCall : (n : N) → Reader (R n)}
  {call : Calls R}

theorem Reader.many_split {read : Reader α} {split : List Lexeme → Option (Reading α)}
    (agree : ∀ c register, c.source = source → Agree c (read c register).1 (split c.rest))
    (limit : Nat) (c : Cursor) (register : Register) (same : c.source = source) :
    Agree c (Reader.many read limit c register).1 (some (Reading.many split limit c.rest)) := by
  induction limit generalizing c register with
  | zero => rfl
  | succ limit ih =>
      unfold Reader.many Reading.many
      obtain ⟨noted, found, reading⟩ | ⟨x, noted, found, reading⟩ := (agree c register same).cases
      · rw [found, reading]
        rfl
      · obtain ⟨_, -, none⟩ | ⟨y, _, others, tail⟩ := (ih (c.past x.taken x.rest) noted same).cases
        · cases none
        · simp only [Cursor.past_rest, Option.some.injEq, Cursor.past_past] at others tail
          simp only [found, reading, others, tail, Agree, Reading.map, Reading.followedBy, Option.map_some]

/-- Reading by a rule is splitting the remaining tokens: the register, the index
and the tokens before have no part in it. -/
theorem Rule.read_split (advance : call.Advance) {r : Rule R α} (proper : r.proper)
    (agree : ∀ n c register, c.source = source → Agree c (readCall n c register).1 (call n c.rest))
    (c : Cursor) (register : Register) (same : c.source = source) :
    Agree c (r.read readCall c register).1 (r.split source call c.rest) := by
  induction r generalizing c register with
  | token kind | except kind =>
      unfold read split
      simp only [Reader.token, Reader.except, Agree]
      cases c.rest with
      | nil => rfl
      | cons l rest =>
          dsimp only
          split <;> rfl
  | word meaning =>
      unfold read split
      simp only [Reader.word, Agree]
      cases c.rest with
      | nil => rfl
      | cons l rest =>
          dsimp only
          split
          · cases meaning l.text <;> rfl
          · rfl
  | call n => exact agree n c register same
  | map f r ih | optional r ih =>
      unfold read split
      obtain ⟨noted, found, reading⟩ | ⟨x, noted, found, reading⟩ :=
        (ih proper c register same).cases <;>
        rw [found, reading] <;> rfl
  | choice r s ihr ihs =>
      simp only [Rule.proper, Bool.and_eq_true] at proper
      unfold read split
      obtain ⟨noted, found, reading⟩ | ⟨x, noted, found, reading⟩ :=
        (ihr proper.1 c register same).cases <;> rw [found, reading]
      · exact ihs proper.2 c noted same
      · rfl
  | seq r s ihr ihs =>
      simp only [Rule.proper, Bool.and_eq_true] at proper
      unfold read split
      obtain ⟨noted, found, reading⟩ | ⟨x, noted, found, reading⟩ :=
        (ihr proper.1 c register same).cases <;> rw [found, reading]
      · rfl
      · dsimp only
        obtain ⟨noted', found', reading'⟩ | ⟨y, noted', found', reading'⟩ :=
          (ihs proper.2 (c.past x.taken x.rest) noted same).cases <;>
          rw [Cursor.past_rest] at reading' <;> rw [found', reading']
        · rfl
        · simp only [Agree, Reading.followedBy, Option.map_some, Cursor.past_past]
  | many r ih =>
      simp only [Rule.proper, Bool.and_eq_true] at proper
      unfold read split
      exact Reader.many_split (ih proper.2) (c.rest.length + 1) c register same
  | spanned r ih | verbatim r ih =>
      simp only [Rule.proper, Bool.and_eq_true] at proper
      unfold read split
      obtain ⟨noted, found, reading⟩ | ⟨x, noted, found, reading⟩ :=
        (ih proper.2 c register same).cases <;> rw [found, reading]
      · rfl
      · obtain ⟨of, some⟩ := split_advances advance reading
        simp only [Agree, Reading.map, Option.map_some, Cursor.spanTo_past of (some proper.1), same]

end Reader

section Depth

variable {N : Type} {R : N → Type} {g : Rules R} {source : Source}

/-- A grammar whose nonterminals take a token each and call, before they have
taken one, only nonterminals of a lower rank. -/
structure Rules.Layered (g : Rules R) where
  height : Nat
  rank : N → Nat
  bounded : ∀ n, rank n < height
  consumes : ∀ n, (g n).consumes
  proper : ∀ n, (g n).proper
  lower : ∀ n, ∀ m ∈ (g n).leading, rank m < rank n

/-- Where fewer tokens remain a lower depth is enough, whatever is called there. -/
theorem Rules.Layered.behind (layered : g.Layered) {fewer length : Nat} (less : fewer < length) (n : N) :
    layered.height * fewer + layered.rank n < layered.height * length := by
  have bounded := layered.bounded n
  have lower := Nat.mul_le_mul_left layered.height (Nat.succ_le_of_lt less)
  rw [Nat.mul_succ] at lower
  omega

/-- Splits by the rule of a nonterminal, following calls at most `depth` deep. -/
def Rules.split (g : Rules R) (source : Source) : (depth : Nat) → Calls R
  | 0, _ => fun _ => none
  | depth + 1, n => (g n).split source (g.split source depth)

theorem Rules.split_advance (layered : g.Layered) (depth : Nat) :
    Calls.Advance (g.split source depth) := by
  induction depth with
  | zero => intro n ls x h; cases h
  | succ depth ih =>
      intro n ls x h
      obtain ⟨of, takes⟩ := Rule.split_advances ih h
      exact ⟨of, takes (layered.consumes n)⟩

theorem Rules.read_split (layered : g.Layered) (depth : Nat) (n : N) (c : Cursor)
    (register : Register) (same : c.source = source) :
    Agree c (g.read depth n c register).1 (g.split source depth n c.rest) := by
  induction depth generalizing n c register with
  | zero => rfl
  | succ depth ih =>
      exact Rule.read_split (split_advance layered depth) (layered.proper n) ih c register same

/-- Beyond a depth that grows with the number of remaining tokens, depth does
not come into what is read. -/
theorem Rules.split_depth (layered : g.Layered) {depth depth' : Nat} {n : N} {ls : List Lexeme}
    (h : layered.height * ls.length + layered.rank n < depth)
    (h' : layered.height * ls.length + layered.rank n < depth') :
    g.split source depth n ls = g.split source depth' n ls := by
  induction depth generalizing depth' n ls with
  | zero => omega
  | succ depth ih =>
      cases depth' with
      | zero => omega
      | succ depth' =>
          refine Rule.split_congr (split_advance layered depth) (layered.proper n) ?_ ?_
          · intro m hm
            have := layered.lower n m hm
            exact ih (by omega) (by omega)
          · intro ms shorter m
            have := layered.behind shorter m
            exact ih (by omega) (by omega)

end Depth

section Language

variable {α : Type}

def layered : rules.Layered where
  height := Symbol.all.length
  rank
    | .typeName | .operand => 0
    | .expression => 1
    | .statement => 2
  bounded n := by cases n <;> decide
  consumes n := by cases n <;> rfl
  proper n := by cases n <;> rfl
  lower n := by cases n <;> decide

/-- What a nonterminal reads, at the depth at which reading begins. -/
def Symbol.split (source : Source) : Calls Symbol.Value := fun n ls =>
  rules.split source (Symbol.all.length * (ls.length + 1)) n ls

/-- What a phrase reads off the front of some tokens. -/
def Phrase.split (source : Source) (r : Phrase α) (ls : List Lexeme) : Option (Reading α) :=
  Rule.split source (Symbol.split source) r ls

theorem Symbol.split_advance (source : Source) : (Symbol.split source).Advance :=
  fun _ _ _ h => Rules.split_advance layered _ _ _ _ h

/-- Every depth that is enough gives the same. -/
theorem Symbol.split_of_depth {source : Source} {depth : Nat} {n : Symbol} {ls : List Lexeme}
    (h : layered.height * ls.length + layered.rank n < depth) :
    rules.split source depth n ls = Symbol.split source n ls := by
  exact Rules.split_depth layered h (layered.behind (Nat.lt_succ_self ls.length) n)

theorem Phrase.split_of_depth {source : Source} {r : Phrase α} (proper : r.proper)
    {ls : List Lexeme} {depth : Nat} (h : layered.height * ls.length ≤ depth)
    (here : ∀ n ∈ r.leading, layered.height * ls.length + layered.rank n < depth) :
    Rule.split source (rules.split source depth) r ls = Phrase.split source r ls := by
  refine Rule.split_congr (Rules.split_advance layered depth) proper
    (fun n hn => Symbol.split_of_depth (here n hn)) fun ms shorter n => ?_
  have := layered.behind shorter n
  exact Symbol.split_of_depth (by omega)

/-- A nonterminal reads what its rule reads. -/
theorem Symbol.split_eq (source : Source) (n : Symbol) (ls : List Lexeme) :
    Symbol.split source n ls = Phrase.split source (rules n) ls := by
  have rank := layered.bounded n
  rw [← split_of_depth (Nat.lt_succ_self (layered.height * ls.length + layered.rank n))]
  refine Phrase.split_of_depth (layered.proper n) (by omega) fun m hm => ?_
  have := layered.lower n m hm
  omega

/-- Reading a phrase is splitting the remaining tokens. -/
theorem Phrase.read_eq {r : Phrase α} (proper : r.proper) (c : Cursor) (register : Register) :
    Agree c (r.read c register).1 (Phrase.split c.source r c.rest) := by
  have agree := Rule.read_split (Rules.split_advance layered _) proper
    (Rules.read_split layered (Symbol.all.length * (c.rest.length + 1))) c register rfl
  have enough : layered.height * c.rest.length + layered.height =
      Symbol.all.length * (c.rest.length + 1) := by
    rw [Nat.mul_succ]
    rfl
  rw [Phrase.split_of_depth proper (by omega) fun n _ => by
    have := layered.bounded n
    omega] at agree
  exact agree

end Language
end SafeSubset.Grammar
