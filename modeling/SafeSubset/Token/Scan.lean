import SafeSubset.Source.Bytes
import SafeSubset.Text.Quoted
import SafeSubset.Token.Piece

/-! The tokens and the faults of a source text. Scanning never stops at a
fault: the text behind it is read as if it stood alone. -/
namespace SafeSubset.Token

/-- A token with its spelling and its place. -/
structure Lexeme where
  kind : Kind
  text : String
  span : Span
  deriving DecidableEq, Repr

/-- Why a stretch of the source is no token. -/
inductive Fault.Cause where
  | unclosedComment
  | unexpected (chars : List Char)
  deriving DecidableEq, Repr

structure Fault where
  cause : Fault.Cause
  span : Span
  deriving DecidableEq, Repr

def Fault.message (fault : Fault) : String :=
  match fault.cause with
  | .unclosedComment => "unterminated block comment"
  | .unexpected chars => "unexpected character: " ++ String.ofList (Text.quoted chars)

/-- The pieces with their spans, the first starting at `offset`. -/
def placed : (offset : Nat) → List Piece → List (Piece × Span)
  | _, [] => []
  | offset, p :: ps =>
      let stop := offset + Source.byteLength p.chars
      (p, ⟨offset, stop⟩) :: placed stop ps

def Lexeme.ofPiece? : Piece × Span → Option Lexeme
  | (⟨.token kind, chars⟩, span) => some ⟨kind, String.ofList chars, span⟩
  | _ => none

def Fault.ofPiece? : Piece × Span → Option Fault
  | (⟨.unclosedComment, _⟩, span) => some ⟨.unclosedComment, span⟩
  | (⟨.unexpected, chars⟩, span) => some ⟨.unexpected chars, span⟩
  | _ => none

structure Scanned where
  lexemes : List Lexeme
  faults : List Fault
  deriving Repr

/-- The tokens and the faults of a text, each in source order. -/
def scan (source : Source) : Scanned :=
  let all := placed 0 (pieces source)
  ⟨all.filterMap Lexeme.ofPiece?, all.filterMap Fault.ofPiece?⟩

end SafeSubset.Token
