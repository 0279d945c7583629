import SafeSubset.Grammar.Phrase

/-! The rules for expressions, from the tightest binding to the loosest: atoms,
suffixes, prefix operators, twelve levels of left-associative operators, the
conditional, and assignment, of which the last two associate to the right. -/
namespace SafeSubset.Grammar.Phrase

open Token (Mark)

/-- The information of a node before typing. -/
def untyped (s : Span) : Info Unit := ⟨s, ()⟩

/-- The words that may follow a number. -/
def unitWords : List String :=
  ["wei", "szabo", "finney", "gwei", "ether", "seconds", "minutes", "hours", "days", "weeks",
   "years"]

def unitWord : Phrase Unit :=
  .word fun w => if w ∈ unitWords then .ok () else .error (.unknownUnit w)

/-- The text between the quotes of a string. -/
def unquoted (text : String) : String :=
  let quotedPart :=
    match text.toList with
    | 'h' :: 'e' :: 'x' :: rest => rest
    | cs => cs
  String.ofList (quotedPart.drop 1).dropLast

def number : Phrase (Expr Unit) :=
  Rule.located (fun s t => .number (untyped s) t)
    (.verbatim (.seq (.token .number) (.optional unitWord)))

def string : Phrase (Expr Unit) :=
  Rule.located (fun s l => .string (untyped s) (unquoted l.text)) (.token .string)

def boolean : Phrase (Expr Unit) :=
  Rule.located (fun s b => .bool (untyped s) b) (keywordOf (.true, true) [(.false, false)])

def creation : Phrase (Expr Unit) :=
  Rule.located (fun s t => .new (untyped s) t) (keyword .new *> typeName)

/-- The keyword `payable` converts to an address. -/
def payableName : Phrase (Expr Unit) :=
  Rule.located (fun s _ => .elementary (untyped s) .address) (keyword .payable)

def elementaryName : Phrase (Expr Unit) :=
  Rule.located (fun s t => .elementary (untyped s) t) elementaryWord

def name : Phrase (Expr Unit) :=
  (fun i => .identifier (untyped i.span) i.text) <$> ident

def tuple : Phrase (Expr Unit) :=
  Rule.located (fun s es => .tuple (untyped s) es) (parens (commas expression))

def atom : Phrase (Expr Unit) :=
  number <|> string <|> boolean <|> creation <|> payableName <|> elementaryName <|> name <|> tuple

/-- What may follow an atom. -/
inductive Suffix where
  | call (args : List (Expr Unit)) (names : List Ident)
  | member (name : Ident)
  | index (index : Option (Expr Unit))
  | step (op : UnaryOp)

def Suffix.apply (s : Span) (e : Expr Unit) : Suffix → Expr Unit
  | call args names => .call (untyped s) e args names
  | member name => .member (untyped s) e name
  | index i => .index (untyped s) e i
  | step op => .unary (untyped s) op .after e

def namedArguments : Phrase (List (Ident × Expr Unit)) :=
  braces (commas (.seq (ident <* mark .colon) expression))

def callSuffix : Phrase Suffix :=
  parens
    (((fun ps => .call (ps.map Prod.snd) (ps.map Prod.fst)) <$> namedArguments)
      <|> ((fun es => .call es []) <$> commas expression))

def suffix : Phrase Suffix :=
  callSuffix
    <|> (Suffix.member <$> (mark .dot *> ident))
    <|> (Suffix.index <$> brackets (.optional expression))
    <|> markOf (.plusPlus, .step .increment) [(.minusMinus, .step .decrement)]

def suffixed : Phrase (Expr Unit) := Rule.chain atom suffix Suffix.apply

def unaryOperator : Phrase UnaryOp :=
  markOf (.bang, .not)
    [(.minus, .negate), (.tilde, .bitNot), (.plusPlus, .increment), (.minusMinus, .decrement)]
    <|> ((fun _ => .delete) <$> keyword .delete)

def operandRule : Phrase (Expr Unit) :=
  Rule.located (fun s p => .unary (untyped s) p.1 .before p.2) (.seq unaryOperator operand)
    <|> suffixed

/-- The operators of one level, the first kept apart. -/
abbrev Level := (Mark × BinaryOp) × List (Mark × BinaryOp)

/-- The levels of binary operators, the tightest first. -/
def levels : List Level :=
  [((.starStar, .power), []),
   ((.star, .multiply), [(.slash, .divide), (.percent, .modulo)]),
   ((.plus, .add), [(.minus, .subtract)]),
   ((.shiftLeft, .shiftLeft), [(.shiftRight, .shiftRight)]),
   ((.amp, .bitAnd), []),
   ((.caret, .bitXor), []),
   ((.pipe, .bitOr), []),
   ((.lessEqual, .lessEqual),
     [(.greaterEqual, .greaterEqual), (.less, .less), (.greater, .greater)]),
   ((.equal, .equal), [(.notEqual, .notEqual)]),
   ((.ampAmp, .and), []),
   ((.pipePipe, .or), [])]

/-- Operands of the next tighter level with operators of this one between. -/
def leveled (tighter : Phrase (Expr Unit)) (level : Level) : Phrase (Expr Unit) :=
  Rule.chain tighter (.seq (markOf level.1 level.2) tighter)
    fun s e t => .binary (untyped s) t.1 e t.2

def disjunction : Phrase (Expr Unit) := levels.foldl leveled operand

def conditional : Phrase (Expr Unit) :=
  Rule.located
    (fun
      | s, (c, some (t, f)) => .conditional (untyped s) c t f
      | _, (c, none) => c)
    (.seq disjunction
      (.optional (.seq (mark .question *> expression) (mark .colon *> expression))))

def assignOperator : Phrase AssignOp :=
  markOf (.assign, .assign)
    [(.plusAssign, .add), (.minusAssign, .subtract), (.starAssign, .multiply),
     (.slashAssign, .divide), (.percentAssign, .modulo), (.pipeAssign, .bitOr),
     (.caretAssign, .bitXor), (.ampAssign, .bitAnd), (.shiftLeftAssign, .shiftLeft),
     (.shiftRightAssign, .shiftRight)]

def expressionRule : Phrase (Expr Unit) :=
  Rule.located
    (fun
      | s, (l, some (op, r)) => .assign (untyped s) op l r
      | _, (l, none) => l)
    (.seq conditional (.optional (.seq assignOperator expression)))

end SafeSubset.Grammar.Phrase
