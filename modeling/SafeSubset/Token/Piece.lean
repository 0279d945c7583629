import SafeSubset.Token.Kind

/-! Cutting a source text into pieces. Each piece is the longest text at its
place that some rule of the vocabulary accepts, or else a fault; its first
character belongs to it in every case, so the pieces tile the text and cutting
ends. -/
namespace SafeSubset.Token

def isSpace (c : Char) : Bool :=
  c = ' ' || c = '\t' || c = '\r' || c = '\n' || c = '\x0c'

def isDigit (c : Char) : Bool := '0' ≤ c && c ≤ '9'

def isHexDigit (c : Char) : Bool :=
  isDigit c || ('a' ≤ c && c ≤ 'f') || ('A' ≤ c && c ≤ 'F')

def isWordStart (c : Char) : Bool :=
  ('a' ≤ c && c ≤ 'z') || ('A' ≤ c && c ≤ 'Z') || c = '_' || c = '$'

def isWordRest (c : Char) : Bool := isWordStart c || isDigit c

/-- What a piece of the source is. -/
inductive PieceKind where
  /-- White space or a comment. -/
  | trivia
  | token (kind : Kind)
  /-- A block comment whose end is missing. -/
  | unclosedComment
  /-- Text at which no rule of the vocabulary holds. -/
  | unexpected
  deriving DecidableEq, Repr

structure Piece where
  kind : PieceKind
  chars : List Char
  deriving DecidableEq, Repr

/-- The number of characters at the front that satisfy `p`. -/
def runLength (p : Char → Bool) (cs : List Char) : Nat := (cs.takeWhile p).length

/-- The number of characters up to and including the first end of a block
comment. -/
def commentLength? : List Char → Option Nat
  | [] => none
  | '*' :: '/' :: _ => some 2
  | _ :: cs => (commentLength? cs).map (· + 1)

/-- The extent of a quoted text behind its opening quote, and whether it is
closed. An escape takes any character but a newline; a backslash without one
ends the text. -/
def quotedExtent (quote : Char) : List Char → Nat × Bool
  | [] => (0, false)
  | [c] => if c = quote then (1, true) else if c = '\n' ∨ c = '\\' then (0, false) else (1, false)
  | c :: d :: cs =>
      if c = quote then (1, true)
      else if c = '\n' then (0, false)
      else if c = '\\' then
        if d = '\n' then (0, false)
        else
          let (n, closed) := quotedExtent quote cs
          (n + 2, closed)
      else
        let (n, closed) := quotedExtent quote (d :: cs)
        (n + 1, closed)

/-- A quoted text that is closed is a string; one that is not is a fault as
far as it extends. -/
def quotedKind (closed : Bool) : PieceKind :=
  if closed then .token .string else .unexpected

/-- The extent of the digits of a hexadecimal string behind its opening quote,
and whether the quote closes it there. -/
def hexStringExtent (quote : Char) (cs : List Char) : Nat × Bool :=
  let digits := runLength (fun c => isHexDigit c || c = '_') cs
  if (cs.drop digits).head? = some quote then (digits + 1, true) else (digits, false)

/-- The number of characters of an exponent, zero where none is well formed. -/
def exponentLength : List Char → Nat
  | c :: cs =>
      let digits := runLength isDigit cs
      if (c = 'e' ∨ c = 'E') ∧ 0 < digits then digits + 1 else 0
  | [] => 0

/-- The number of characters of a number behind its first digit. -/
def numberLength (first : Char) (cs : List Char) : Nat :=
  let digits := runLength isDigit cs
  let decimal := digits + exponentLength (cs.drop digits)
  match cs with
  | x :: rest =>
      let hex := runLength isHexDigit rest
      if first = '0' ∧ (x = 'x' ∨ x = 'X') ∧ 0 < hex then hex + 1 else decimal
  | [] => decimal

/-- A word is the keyword that it spells, and an identifier if it spells none. -/
def wordKind (word : String) : Kind :=
  ((Keyword.ofText? word).map Kind.keyword).getD .identifier

/-- The kind of the piece that starts with `c`, and the number of characters
of `cs` that belong to it. -/
def first (c : Char) (cs : List Char) : PieceKind × Nat :=
  if isSpace c then (.trivia, runLength isSpace cs)
  else if c = '/' ∧ cs.head? = some '/' then (.trivia, runLength (· ≠ '\n') cs)
  else if c = '/' ∧ cs.head? = some '*' then
    match commentLength? cs.tail with
    | some n => (.trivia, n + 1)
    | none => (.unclosedComment, cs.length)
  else if c = '"' ∨ c = '\'' then
    let (n, closed) := quotedExtent c cs
    (quotedKind closed, n)
  else if isDigit c then (.token .number, numberLength c cs)
  else if isWordStart c then
    match c, cs with
    | 'h', 'e' :: 'x' :: '"' :: rest =>
        let (n, closed) := hexStringExtent '"' rest
        (quotedKind closed, n + 3)
    | 'h', 'e' :: 'x' :: '\'' :: rest =>
        let (n, closed) := hexStringExtent '\'' rest
        (quotedKind closed, n + 3)
    | _, _ =>
        let rest := cs.takeWhile isWordRest
        (.token (wordKind (String.ofList (c :: rest))), rest.length)
  else
    match Mark.longest? (c :: cs) with
    | some m => (.token (.mark m), m.text.length - 1)
    | none => (.unexpected, 0)

/-- The pieces of a text of which the first `skip` characters belong to a
piece already cut. -/
def piecesAfter : (skip : Nat) → List Char → List Piece
  | _, [] => []
  | skip + 1, _ :: cs => piecesAfter skip cs
  | 0, c :: cs =>
      let (kind, n) := first c cs
      ⟨kind, c :: cs.take n⟩ :: piecesAfter n cs

/-- The pieces of a text, in order. -/
def pieces (cs : List Char) : List Piece := piecesAfter 0 cs

end SafeSubset.Token
