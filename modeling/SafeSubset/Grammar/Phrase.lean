import SafeSubset.Grammar.Rule
import SafeSubset.Syntax.SourceUnit
import SafeSubset.Types.Elementary

/-! The nonterminals of the language, and the small phrases that its rules are
made of. Only what can contain itself is a nonterminal. -/
namespace SafeSubset.Grammar

open Token (Keyword Mark Kind Lexeme)

inductive Symbol where
  | typeName
  | expression
  /-- What the prefix operators apply to. -/
  | operand
  | statement
  deriving DecidableEq, Repr

def Symbol.all : List Symbol := [typeName, expression, operand, statement]

/-- What a nonterminal yields. Nothing is known yet about an expression. -/
abbrev Symbol.Value : Symbol → Type
  | typeName => TypeName
  | expression | operand => Expr Unit
  | statement => Stmt Unit

abbrev Phrase := Rule Symbol.Value

namespace Phrase

variable {α β : Type}

def keyword (k : Keyword) : Phrase Lexeme := .token (.keyword k)

def mark (m : Mark) : Phrase Lexeme := .token (.mark m)

def typeName : Phrase TypeName := .call Symbol.typeName

def expression : Phrase (Expr Unit) := .call Symbol.expression

def operand : Phrase (Expr Unit) := .call Symbol.operand

def statement : Phrase (Stmt Unit) := .call Symbol.statement

def ident : Phrase Ident := (fun l => ⟨l.text, l.span⟩) <$> Rule.token .identifier

def parens (r : Phrase α) : Phrase α := mark .openParen *> r <* mark .closeParen

def braces (r : Phrase α) : Phrase α := mark .openBrace *> r <* mark .closeBrace

def brackets (r : Phrase α) : Phrase α := mark .openBracket *> r <* mark .closeBracket

/-- Values with commas between them. -/
def commas (r : Phrase α) : Phrase (List α) := Rule.separated r (mark .comma)

def path : Phrase Path :=
  (fun p => Path.ofComponents p.1 p.2) <$> Rule.separated1 ident (mark .dot)

/-- One of several marks, each of which stands for a value. -/
def markOf (first : Mark × β) (others : List (Mark × β)) : Phrase β :=
  Rule.oneOf (.mark first.1, first.2) (others.map fun p => (.mark p.1, p.2))

/-- One of several keywords, each of which stands for a value. -/
def keywordOf (first : Keyword × β) (others : List (Keyword × β)) : Phrase β :=
  Rule.oneOf (.keyword first.1, first.2) (others.map fun p => (.keyword p.1, p.2))

/-- An identifier that names an elementary type. -/
def elementaryWord : Phrase Ty :=
  .word fun w =>
    match Ty.ofName? w with
    | some t => .ok t
    | none => .error (.notElementary w)

end Phrase
end SafeSubset.Grammar
