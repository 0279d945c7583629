import SafeSubset.Grammar.Phrase

/-! The rule for types. -/
namespace SafeSubset.Grammar.Phrase

def mappingType : Phrase TypeName :=
  Rule.located (fun s p => .mapping s p.1 p.2)
    (keyword .mapping *> parens (.seq (typeName <* mark .arrow) typeName))

/-- An elementary type's name; `payable` behind it says nothing about the type. -/
def elementaryType : Phrase TypeName :=
  Rule.located .elementary (elementaryWord <* .optional (keyword .payable))

def userType : Phrase TypeName := Rule.located .user path

/-- The length of an array, if one is written. -/
def arrayLength : Phrase (Option String) :=
  brackets (.optional ((fun l => l.text) <$> Rule.token .number))

def typeNameRule : Phrase TypeName :=
  Rule.chain (mappingType <|> elementaryType <|> userType) arrayLength .array

end SafeSubset.Grammar.Phrase
