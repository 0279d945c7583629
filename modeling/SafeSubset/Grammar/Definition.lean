import SafeSubset.Grammar.Statement

/-! The rules for the members of a contract, for contracts, and for files. A
definition that needs a number has zero here; numbers are given once the whole
file is known. -/
namespace SafeSubset.Grammar.Phrase

def parameter : Phrase Parameter :=
  Rule.located (fun s p => ⟨p.1, p.2, s⟩)
    (.seq
      (typeName <*
        .many (keywordOf (.indexed, ()) [(.memory, ()), (.storage, ()), (.calldata, ())]))
      (.optional ident))

def parameters : Phrase (List Parameter) := parens (commas parameter)

def arguments : Phrase (List (Expr Unit)) := parens (commas expression)

def attributeWord : Phrase Attribute :=
  keywordOf (.public, .isPublic)
    [(.private, .isPrivate), (.internal, .isInternal), (.external, .isExternal),
     (.pure, .isPure), (.view, .isView), (.payable, .isPayable), (.constant, .isConstant)]

def invocation : Phrase (Invocation Unit) :=
  Rule.located (fun s p => ⟨p.1, p.2.getD [], s⟩) (.seq ident (.optional arguments))

/-- What stands between the parameters and the body of a function. -/
def headItem : Phrase (Attribute ⊕ Invocation Unit) :=
  (Sum.inl <$> attributeWord) <|> (Sum.inr <$> invocation)

def functionName : Phrase FunctionName :=
  ((fun name => (name.map FunctionName.named).getD .fallback)
      <$> (keyword .function *> .optional ident))
    <|> ((fun _ => .constructor) <$> keyword .constructor)

def function : Phrase (Member Unit) :=
  Rule.located
    (fun s p =>
      .function
        { id := 0
          name := p.1
          params := p.2.1
          attributes := p.2.2.1.filterMap Sum.getLeft?
          modifiers := p.2.2.1.filterMap Sum.getRight?
          returns := p.2.2.2.1.getD []
          body := p.2.2.2.2
          span := s })
    (.seq functionName
      (.seq parameters
        (.seq (.many headItem)
          (.seq (.optional (keyword .returns *> parameters))
            ((some <$> block) <|> ((fun _ => none) <$> mark .semicolon))))))

def modifier : Phrase (Member Unit) :=
  Rule.located (fun s p => .modifier ⟨p.1, p.2.1.getD [], p.2.2, s⟩)
    (.seq (keyword .modifier *> ident) (.seq (.optional parameters) block))

def event : Phrase (Member Unit) :=
  Rule.located (fun s p => .event ⟨p.1, p.2, s⟩)
    (.seq (keyword .event *> ident)
      (parameters <* .optional (keyword .anonymous) <* mark .semicolon))

def field : Phrase Field :=
  Rule.located (fun s p => ⟨p.1, p.2, s⟩) (.seq typeName (ident <* mark .semicolon))

def struct : Phrase (Member Unit) :=
  Rule.located (fun s p => .struct ⟨p.1, p.2, s⟩)
    (.seq (keyword .struct *> ident) (braces (.many field)))

/-- An enumeration. A comma may stand behind its last value, but not alone. -/
def enum : Phrase (Member Unit) :=
  Rule.located (fun s p => .enum ⟨p.1, p.2, s⟩)
    (.seq (keyword .enum *> ident) (braces (Rule.separatedTrailing ident (mark .comma))))

def directive : Phrase (Member Unit) :=
  Rule.located (fun s p => .directive ⟨p.1, p.2, s⟩)
    (.seq (keyword .using *> path <* keyword .for)
      (((fun _ => none) <$> mark .star) <|> (some <$> typeName))
      <* mark .semicolon)

def stateVariable : Phrase (Member Unit) :=
  Rule.located (fun s p => .state ⟨p.1, p.2.1, p.2.2, s⟩)
    (.seq
      (typeName <*
        .many (keywordOf (.public, ()) [(.private, ()), (.internal, ()), (.constant, ())]))
      (.seq ident (initializer <* mark .semicolon)))

def member : Phrase (Member Unit) :=
  function <|> modifier <|> event <|> struct <|> enum <|> directive <|> stateVariable

def base : Phrase (Base Unit) :=
  Rule.located (fun s p => ⟨p.1, p.2, s⟩) (.seq ident (.optional arguments))

def contract : Phrase (Node Unit) :=
  Rule.located
    (fun s p =>
      .contract
        { id := 0
          kind := p.1
          name := p.2.1
          bases := p.2.2.1.getD []
          members := p.2.2.2
          span := s })
    (.seq
      (keywordOf (.contract, ContractKind.contract) [(.library, .library), (.interface, .interface)])
      (.seq ident
        (.seq
          (.optional
            ((fun p => p.1 :: p.2) <$> (keyword .is *> Rule.separated1 base (mark .comma))))
          (braces (.many member)))))

/-- The rest of a directive that is kept as it is. -/
def untilSemicolon : Phrase Unit :=
  (fun _ => ()) <$> (.many (.except (.mark .semicolon)) <* mark .semicolon)

def pragma : Phrase (Node Unit) :=
  Rule.located (fun s _ => .pragma s) (keyword .pragma *> untilSemicolon)

def inclusion : Phrase (Node Unit) :=
  Rule.located (fun s _ => .inclusion s) (keyword .import *> untilSemicolon)

def nodes : Phrase (List (Node Unit)) := .many (pragma <|> inclusion <|> contract)

end SafeSubset.Grammar.Phrase
