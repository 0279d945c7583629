import SafeSubset.Proofs.Grammar.Language
import SafeSubset.Proofs.Token.Tiling

/-! Where a failure is noted. Every rule takes note of its failures at a token of
the text or at its end, and going back, forgetting and merging leave the place of
the failure that is kept as it was. -/
namespace SafeSubset.Grammar

open Token (Kind Lexeme)

/-- The failure lies at one of the tokens or at the end of the text. -/
def Failure.At (source : Source) (ls : List Lexeme) (f : Failure) : Prop :=
  f.span ∈ ls.map (·.span) ∨ f.span = .point (Source.byteLength source)

/-- What is kept, if anything, lies there. -/
def Register.At (source : Source) (ls : List Lexeme) (register : Register) : Prop :=
  ∀ f ∈ register, f.At source ls

/-- The place is one between the tokens. -/
structure Cursor.Among (source : Source) (ls : List Lexeme) (c : Cursor) : Prop where
  same : c.source = source
  suffix : c.rest <:+ ls

/-- Reading ends among the tokens, and what it has noted lies there. -/
structure Lands {α : Type} (source : Source) (ls : List Lexeme)
    (result : Option (α × Cursor) × Register) : Prop where
  notes : result.2.At source ls
  goes : ∀ found ∈ result.1, found.2.Among source ls

/-- The reader stays among the tokens and notes its failures there. -/
def Reader.Stays {α : Type} (source : Source) (ls : List Lexeme) (read : Reader α) : Prop :=
  ∀ c register, c.Among source ls → register.At source ls → Lands source ls (read c register)

variable {α : Type} {source : Source} {ls rest : List Lexeme} {c : Cursor} {f : Failure}
  {register : Register} {l : Lexeme}

section Notes

theorem Register.At.merge (kept : register.At source ls) (noted : f.At source ls) :
    (register.merge f).At source ls := by
  unfold Register.merge
  cases register with
  | none => exact noted
  | some g =>
      have here : g.At source ls := kept g rfl
      dsimp only
      split
      · exact noted
      split
      · exact here
      · exact here

theorem Register.At.add (kept : register.At source ls) (noted : f.At source ls) :
    (register.add f).At source ls := by
  rintro g same
  cases Option.mem_some.1 same
  exact kept.merge noted

theorem Cursor.Among.unmet (among : c.Among source ls) (expected : Expected) :
    (c.unmet expected).At source ls := by
  obtain ⟨same, suffix⟩ := among
  unfold Cursor.unmet Cursor.here Failure.At
  rw [same]
  cases next : c.rest with
  | nil => exact .inr rfl
  | cons l rest => exact .inl (List.mem_map_of_mem (suffix.subset (next ▸ List.mem_cons_self)))

theorem Cursor.Among.next (among : c.Among source ls) (next : c.rest = l :: rest) :
    l ∈ ls ∧ (c.advance l rest).Among source ls := by
  have suffix := next ▸ among.suffix
  exact ⟨suffix.subset List.mem_cons_self, among.same, (List.suffix_cons l rest).trans suffix⟩

theorem Failure.at_of_mem (member : l ∈ ls) (index : Nat) (reason : Reason) :
    Failure.At source ls ⟨index, l.span, reason⟩ :=
  .inl (List.mem_map_of_mem member)

end Notes

section Readers

variable {a : α}

theorem Lands.found (among : c.Among source ls) (kept : register.At source ls) :
    Lands source ls (some (a, c), register) :=
  ⟨kept, fun _ same => Option.mem_some.1 same ▸ among⟩

theorem Lands.failed (kept : register.At source ls) :
    Lands (α := α) source ls (none, register) :=
  ⟨kept, nofun⟩

theorem Reader.stays_token (kind : Kind) : (Reader.token kind).Stays source ls := by
  intro c register among kept
  unfold Reader.token
  split
  · next l rest next =>
    split
    · exact .found (among.next next).2 kept
    · exact .failed (kept.add (among.unmet _))
  · exact .failed (kept.add (among.unmet _))

theorem Reader.stays_except (kind : Kind) : (Reader.except kind).Stays source ls := by
  intro c register among kept
  unfold Reader.except
  split
  · next l rest next =>
    split
    · exact .failed (kept.add (Failure.at_of_mem (among.next next).1 _ _))
    · exact .found (among.next next).2 kept
  · exact .failed (kept.add (among.unmet _))

theorem Reader.stays_word (meaning : String → Except Misfit α) :
    (Reader.word meaning).Stays source ls := by
  intro c register among kept
  have forgotten : Register.At source ls (some (c.unmet (.token .identifier))) := by
    rintro f ⟨⟩
    exact among.unmet _
  unfold Reader.word
  split
  · next l rest next =>
    split
    · split
      · exact .found (among.next next).2 kept
      · exact .failed (kept.add (Failure.at_of_mem (among.next next).1 _ _))
    · exact .failed forgotten
  · exact .failed forgotten

theorem Reader.stays_many {read : Reader α} (stays : read.Stays source ls) (limit : Nat) :
    (Reader.many read limit).Stays source ls := by
  induction limit with
  | zero => exact fun c register among kept => .found among kept
  | succ limit ih =>
      intro c register among kept
      have first := stays c register among kept
      unfold Reader.many
      generalize read c register = result at first
      obtain ⟨_ | ⟨a, next⟩, noted⟩ := result
      · exact .found among first.notes
      · have others := ih next noted (first.goes _ rfl) first.notes
        dsimp only
        generalize Reader.many read limit next noted = result at others
        obtain ⟨_ | ⟨as, behind⟩, noted'⟩ := result
        · exact .failed others.notes
        · exact .found (others.goes _ rfl) others.notes

variable {N : Type} {R : N → Type} {call : (n : N) → Reader (R n)}

theorem Rule.stays (calls : ∀ n, (call n).Stays source ls) (r : Rule R α) :
    Reader.Stays source ls (r.read call) := by
  induction r with
  | token kind => exact Reader.stays_token kind
  | except kind => exact Reader.stays_except kind
  | word meaning => exact Reader.stays_word meaning
  | call n => exact calls n
  | many r ih => exact fun c register among kept => Reader.stays_many ih _ c register among kept
  | map f r ih | spanned r ih | verbatim r ih =>
      intro c register among kept
      have inner := ih c register among kept
      unfold Rule.read
      generalize r.read call c register = result at inner ⊢
      obtain ⟨_ | ⟨a, next⟩, noted⟩ := result
      · exact .failed inner.notes
      · exact .found (inner.goes _ rfl) inner.notes
  | optional r ih =>
      intro c register among kept
      have inner := ih c register among kept
      unfold Rule.read
      generalize r.read call c register = result at inner ⊢
      obtain ⟨_ | ⟨a, next⟩, noted⟩ := result
      · exact .found among inner.notes
      · exact .found (inner.goes _ rfl) inner.notes
  | choice r s ihr ihs =>
      intro c register among kept
      have first := ihr c register among kept
      unfold Rule.read
      generalize r.read call c register = result at first ⊢
      obtain ⟨_ | ⟨a, next⟩, noted⟩ := result
      · exact ihs c noted among first.notes
      · exact .found (first.goes _ rfl) first.notes
  | seq r s ihr ihs =>
      intro c register among kept
      have first := ihr c register among kept
      unfold Rule.read
      generalize r.read call c register = result at first ⊢
      obtain ⟨_ | ⟨a, next⟩, noted⟩ := result
      · exact .failed first.notes
      · have second := ihs next noted (first.goes _ rfl) first.notes
        dsimp only
        generalize s.read call next noted = result at second ⊢
        obtain ⟨_ | ⟨b, behind⟩, noted'⟩ := result
        · exact .failed second.notes
        · exact .found (second.goes _ rfl) second.notes

theorem Rules.stays (g : Rules R) (depth : Nat) (n : N) : (g.read depth n).Stays source ls := by
  induction depth generalizing n with
  | zero => exact fun c register _ kept => .failed kept
  | succ depth ih => exact Rule.stays ih (g n)

end Readers

/-- A text that cannot be read to its end fails at one of its tokens or at its end. -/
theorem Phrase.readAll_at {r : Phrase α} (h : r.readAll (.start source ls) = .error f) :
    f.At source ls := by
  have among : (Cursor.start source ls).Among source ls := ⟨rfl, List.suffix_refl ls⟩
  have lands : Lands source ls (r.read (.start source ls) none) :=
    Rule.stays (Rules.stays rules _) r _ none among nofun
  unfold readAll at h
  rcases result : r.read (.start source ls) none with ⟨_ | ⟨a, after⟩, register⟩ <;>
    rw [result] at h lands
  · cases h
    cases register with
    | none => exact among.unmet .anything
    | some f => exact lands.notes f rfl
  · dsimp only at h
    split at h
    · cases h
    · cases h
      exact lands.notes.merge ((lands.goes _ rfl).unmet .endOfInput)

end SafeSubset.Grammar
