import SafeSubset.Grammar.Phrase

/-! The rules for statements. -/
namespace SafeSubset.Grammar.Phrase

/-- Where a value is kept; it has no part in the type. -/
def dataLocation : Phrase Unit := keywordOf (.memory, ()) [(.storage, ()), (.calldata, ())]

/-- The initial value of a variable, if it has one. -/
def initializer : Phrase (Option (Expr Unit)) := .optional (mark .assign *> expression)

/-- A local variable, without the semicolon that ends the statement. -/
def localVariable : Phrase (Variable Unit) :=
  Rule.located (fun s p => ⟨p.1, p.2.1, p.2.2, s⟩)
    (.seq (typeName <* .optional dataLocation) (.seq ident initializer))

def block : Phrase (Block Unit) := Rule.located (fun s b => ⟨b, s⟩) (braces (.many statement))

def blockStatement : Phrase (Stmt Unit) := (fun b => .block b.span b.body) <$> block

def ifStatement : Phrase (Stmt Unit) :=
  Rule.located (fun s p => .if s p.1 p.2.1 p.2.2)
    (.seq (keyword .if *> parens expression)
      (.seq statement (.optional (keyword .else *> statement))))

def whileStatement : Phrase (Stmt Unit) :=
  Rule.located (fun s p => .while s p.1 p.2)
    (.seq (keyword .while *> parens expression) statement)

def doStatement : Phrase (Stmt Unit) :=
  Rule.located (fun s p => .doWhile s p.1 p.2)
    (.seq (keyword .do *> statement) (keyword .while *> parens expression <* mark .semicolon))

def forInitial : Phrase (Stmt Unit) :=
  Rule.located (fun s v => .declare s v) localVariable
    <|> Rule.located (fun s e => .expression s e) expression

def forStatement : Phrase (Stmt Unit) :=
  Rule.located (fun s p => .for s p.1.1 p.1.2.1 p.1.2.2 p.2)
    (.seq
      (keyword .for *>
        parens (.seq (.optional forInitial <* mark .semicolon)
          (.seq (.optional expression <* mark .semicolon) (.optional expression))))
      statement)

def returnStatement : Phrase (Stmt Unit) :=
  Rule.located (fun s v => .return s v)
    (keyword .return *> .optional expression <* mark .semicolon)

def emitStatement : Phrase (Stmt Unit) :=
  Rule.located (fun s e => .emit s e) (keyword .emit *> expression <* mark .semicolon)

def jumpStatement : Phrase (Stmt Unit) :=
  Rule.located (fun s jump => jump s)
    (keywordOf (.break, Stmt.break) [(.continue, Stmt.continue), (.throw, Stmt.throw)]
      <* mark .semicolon)

def declarationStatement : Phrase (Stmt Unit) :=
  Rule.located (fun s v => .declare s v) (localVariable <* mark .semicolon)

def expressionStatement : Phrase (Stmt Unit) :=
  Rule.located (fun s e => .expression s e) (expression <* mark .semicolon)

/-- A declaration is tried before an expression, which may begin alike. -/
def statementRule : Phrase (Stmt Unit) :=
  blockStatement <|> ifStatement <|> whileStatement <|> doStatement <|> forStatement
    <|> returnStatement <|> emitStatement <|> jumpStatement <|> declarationStatement
    <|> expressionStatement

end SafeSubset.Grammar.Phrase
