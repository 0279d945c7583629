import SafeSubset.Grammar.Expectation

/-! Grammar rules as data, and what it means to read by them. A rule either
reads a value off the front of the remaining tokens or fails; a choice tries
its alternatives in order and never returns to one that has succeeded. The
register of failures runs alongside and has no influence on what is read. -/
namespace SafeSubset.Grammar

open Token (Kind Lexeme)

/-- A place between two tokens of a source text. -/
structure Cursor where
  source : Source
  rest : List Lexeme
  /-- The number of tokens before this place. -/
  index : Nat
  /-- Where the last of them ends. -/
  stop : Nat

namespace Cursor

/-- The place before the first token. -/
def start (source : Source) (lexemes : List Lexeme) : Cursor := ⟨source, lexemes, 0, 0⟩

/-- The place behind one more token. -/
def advance (c : Cursor) (l : Lexeme) (rest : List Lexeme) : Cursor :=
  { c with rest, index := c.index + 1, stop := l.span.stop }

/-- The span of the next token, or the empty one at the end of the text. -/
def here (c : Cursor) : Span :=
  match c.rest with
  | l :: _ => l.span
  | [] => .point (Source.byteLength c.source)

/-- From the start of the next token to the end of the last token before
`after`. -/
def spanTo (c after : Cursor) : Span := ⟨c.here.start, after.stop⟩

/-- The failure to find `expected` here. -/
def unmet (c : Cursor) (expected : Expected) : Failure :=
  ⟨c.index, c.here, .unmet [expected] (c.rest.head?.map Lexeme.kind)⟩

end Cursor

/-- A way to read a value: what was read and the place behind it, if anything,
and the failures noted on the way. -/
abbrev Reader (α : Type) := Cursor → Register → Option (α × Cursor) × Register

/-- Rules over nonterminals that yield values of the types `R`. -/
inductive Rule {N : Type} (R : N → Type) : Type → Type 1 where
  /-- One token of a kind. -/
  | token (kind : Kind) : Rule R Lexeme
  /-- One token of any other kind. -/
  | except (kind : Kind) : Rule R Lexeme
  /-- One identifier that has a meaning. -/
  | word {α : Type} (meaning : String → Except Misfit α) : Rule R α
  | call (n : N) : Rule R (R n)
  | map {α β : Type} (f : α → β) (r : Rule R α) : Rule R β
  | seq {α β : Type} (r : Rule R α) (s : Rule R β) : Rule R (α × β)
  | choice {α : Type} (r s : Rule R α) : Rule R α
  | optional {α : Type} (r : Rule R α) : Rule R (Option α)
  /-- As many in a row as there are. -/
  | many {α : Type} (r : Rule R α) : Rule R (List α)
  /-- The value together with the span of its tokens. -/
  | spanned {α : Type} (r : Rule R α) : Rule R (α × Span)
  /-- The source text of the span. -/
  | verbatim {α : Type} (r : Rule R α) : Rule R String

namespace Reader

variable {α : Type}

def token (kind : Kind) : Reader Lexeme := fun c register =>
  match c.rest with
  | l :: rest =>
      if l.kind = kind then (some (l, c.advance l rest), register)
      else (none, register.add (c.unmet (.token kind)))
  | [] => (none, register.add (c.unmet (.token kind)))

/-- A token that is there but of the excluded kind counts as read when its
failure is noted. -/
def except (kind : Kind) : Reader Lexeme := fun c register =>
  match c.rest with
  | l :: rest =>
      if l.kind = kind then
        (none, register.add ⟨c.index + 1, l.span, .unmet [.somethingElse] none⟩)
      else (some (l, c.advance l rest), register)
  | [] => (none, register.add (c.unmet .anything))

/-- The failures before a word are forgotten unless a word is there. -/
def word (meaning : String → Except Misfit α) : Reader α := fun c register =>
  match c.rest with
  | l :: rest =>
      if l.kind = .identifier then
        match meaning l.text with
        | .ok a => (some (a, c.advance l rest), register)
        | .error m => (none, register.add ⟨c.index, l.span, .misfit m⟩)
      else (none, some (c.unmet (.token .identifier)))
  | [] => (none, some (c.unmet (.token .identifier)))

/-- Reads at most `limit` values in a row. -/
def many (read : Reader α) : (limit : Nat) → Reader (List α)
  | 0, c, register => (some ([], c), register)
  | limit + 1, c, register =>
      match read c register with
      | (none, register) => (some ([], c), register)
      | (some (a, c), register) =>
          match many read limit c register with
          | (none, register) => (none, register)
          | (some (as, c), register) => (some (a :: as, c), register)

end Reader

namespace Rule

variable {N : Type} {R : N → Type}

/-- What a rule reads when `call` reads the nonterminals. A repetition ends
within as many values as there are tokens, because each of its values takes at
least one. -/
def read (call : (n : N) → Reader (R n)) : {α : Type} → Rule R α → Reader α
  | _, token kind => Reader.token kind
  | _, except kind => Reader.except kind
  | _, word meaning => Reader.word meaning
  | _, .call n => call n
  | _, map f r => fun c register =>
      match read call r c register with
      | (none, register) => (none, register)
      | (some (a, c), register) => (some (f a, c), register)
  | _, seq r s => fun c register =>
      match read call r c register with
      | (none, register) => (none, register)
      | (some (a, c), register) =>
          match read call s c register with
          | (none, register) => (none, register)
          | (some (b, c), register) => (some ((a, b), c), register)
  | _, choice r s => fun c register =>
      match read call r c register with
      | (none, register) => read call s c register
      | (some found, register) => (some found, register)
  | _, optional r => fun c register =>
      match read call r c register with
      | (none, register) => (some (none, c), register)
      | (some (a, c), register) => (some (some a, c), register)
  | _, many r => fun c register =>
      Reader.many (read call r) (c.rest.length + 1) c register
  | _, spanned r => fun c register =>
      match read call r c register with
      | (none, register) => (none, register)
      | (some (a, after), register) => (some ((a, c.spanTo after), after), register)
  | _, verbatim r => fun c register =>
      match read call r c register with
      | (none, register) => (none, register)
      | (some (_, after), register) =>
          (some (String.ofList (Source.slice c.source (c.spanTo after)), after), register)

instance : Functor (Rule R) where
  map := map

instance : Seq (Rule R) where
  seq r s := map (fun p => p.1 p.2) (seq r (s ()))

instance : SeqLeft (Rule R) where
  seqLeft r s := map Prod.fst (seq r (s ()))

instance : SeqRight (Rule R) where
  seqRight r s := map Prod.snd (seq r (s ()))

instance {α : Type} : OrElse (Rule R α) where
  orElse r s := choice r (s ())

/-- One or more values with a separator between them; a separator that no
value follows is left unread. -/
def separated1 {α β : Type} (r : Rule R α) (separator : Rule R β) : Rule R (α × List α) :=
  seq r (many (separator *> r))

/-- A list that may be absent, which then is empty. -/
def orEmpty {α : Type} (r : Rule R (α × List α)) : Rule R (List α) :=
  (fun
    | some (a, as) => a :: as
    | none => []) <$> optional r

/-- Any number of values with a separator between them. -/
def separated {α β : Type} (r : Rule R α) (separator : Rule R β) : Rule R (List α) :=
  orEmpty (separated1 r separator)

/-- Any number of values with a separator between them and perhaps one behind
the last. Without a value there is no separator either. -/
def separatedTrailing {α β : Type} (r : Rule R α) (separator : Rule R β) : Rule R (List α) :=
  orEmpty (separated1 r separator <* optional separator)

/-- A head and any number of tails, built up from the left. Each result spans
from the start of the head to the end of its last tail. -/
def chain {α β : Type} (head : Rule R α) (tail : Rule R β) (build : Span → α → β → α) :
    Rule R α :=
  (fun (((a, s), tails) : (α × Span) × List (β × Span)) =>
    tails.foldl (fun a t => build ⟨s.start, t.2.stop⟩ a t.1) a)
    <$> seq (spanned head) (many (spanned tail))

/-- A value that is built from its span. -/
def located {α β : Type} (build : Span → α → β) (r : Rule R α) : Rule R β :=
  (fun p => build p.2 p.1) <$> spanned r

/-- One of several kinds of token, each of which stands for a value. -/
def oneOf {β : Type} (first : Kind × β) : List (Kind × β) → Rule R β
  | [] => (fun _ => first.2) <$> token first.1
  | next :: rest => ((fun _ => first.2) <$> token first.1) <|> oneOf next rest

end Rule

/-- A grammar has one rule for each nonterminal. -/
abbrev Rules {N : Type} (R : N → Type) := (n : N) → Rule R (R n)

/-- Reads a nonterminal, following calls at most `depth` deep. -/
def Rules.read {N : Type} {R : N → Type} (g : Rules R) : (depth : Nat) → (n : N) → Reader (R n)
  | 0, _ => fun _ register => (none, register)
  | depth + 1, n => (g n).read (g.read depth)

end SafeSubset.Grammar
