/-! The vocabulary of the language. A kind is a keyword, a mark, or one of the
three open classes, whose members differ in their text alone. Names of
elementary types are ordinary identifiers here. -/
namespace SafeSubset.Token

inductive Keyword where
  | «pragma» | «import» | «contract» | «library» | «interface» | «is»
  | «function» | «constructor» | «modifier» | «event» | «struct» | «enum»
  | «returns» | «return» | «using» | «for» | «if» | «else» | «while» | «do»
  | «break» | «continue» | «throw» | «emit» | «mapping» | «new» | «delete»
  | «true» | «false» | «public» | «private» | «internal» | «external»
  | «pure» | «view» | «payable» | «constant» | «memory» | «storage»
  | «calldata» | «indexed» | «anonymous»
  deriving DecidableEq, Repr

namespace Keyword

def text : Keyword → String
  | «pragma» => "pragma"
  | «import» => "import"
  | «contract» => "contract"
  | «library» => "library"
  | «interface» => "interface"
  | «is» => "is"
  | «function» => "function"
  | «constructor» => "constructor"
  | «modifier» => "modifier"
  | «event» => "event"
  | «struct» => "struct"
  | «enum» => "enum"
  | «returns» => "returns"
  | «return» => "return"
  | «using» => "using"
  | «for» => "for"
  | «if» => "if"
  | «else» => "else"
  | «while» => "while"
  | «do» => "do"
  | «break» => "break"
  | «continue» => "continue"
  | «throw» => "throw"
  | «emit» => "emit"
  | «mapping» => "mapping"
  | «new» => "new"
  | «delete» => "delete"
  | «true» => "true"
  | «false» => "false"
  | «public» => "public"
  | «private» => "private"
  | «internal» => "internal"
  | «external» => "external"
  | «pure» => "pure"
  | «view» => "view"
  | «payable» => "payable"
  | «constant» => "constant"
  | «memory» => "memory"
  | «storage» => "storage"
  | «calldata» => "calldata"
  | «indexed» => "indexed"
  | «anonymous» => "anonymous"

def all : List Keyword :=
  [«pragma», «import», «contract», «library», «interface», «is», «function», «constructor»,
   «modifier», «event», «struct», «enum», «returns», «return», «using», «for», «if», «else»,
   «while», «do», «break», «continue», «throw», «emit», «mapping», «new», «delete», «true»,
   «false», «public», «private», «internal», «external», «pure», «view», «payable», «constant»,
   «memory», «storage», «calldata», «indexed», «anonymous»]

/-- The keyword that a word spells, if it spells one. -/
def ofText? (word : String) : Option Keyword :=
  all.find? fun k => k.text == word

end Keyword

inductive Mark where
  | openParen | closeParen | openBrace | closeBrace | openBracket | closeBracket
  | semicolon | comma | dot | question | colon | arrow
  | assign | plusAssign | minusAssign | starAssign | slashAssign | percentAssign
  | pipeAssign | caretAssign | ampAssign | shiftLeftAssign | shiftRightAssign
  | plus | minus | star | starStar | slash | percent | shiftLeft | shiftRight
  | amp | pipe | caret | tilde | bang | ampAmp | pipePipe | equal | notEqual
  | less | greater | lessEqual | greaterEqual | plusPlus | minusMinus
  deriving DecidableEq, Repr

namespace Mark

def text : Mark → String
  | openParen => "("
  | closeParen => ")"
  | openBrace => "\x7b"
  | closeBrace => "\x7d"
  | openBracket => "["
  | closeBracket => "]"
  | semicolon => ";"
  | comma => ","
  | dot => "."
  | question => "?"
  | colon => ":"
  | arrow => "=>"
  | assign => "="
  | plusAssign => "+="
  | minusAssign => "-="
  | starAssign => "*="
  | slashAssign => "/="
  | percentAssign => "%="
  | pipeAssign => "|="
  | caretAssign => "^="
  | ampAssign => "&="
  | shiftLeftAssign => "<<="
  | shiftRightAssign => ">>="
  | plus => "+"
  | minus => "-"
  | star => "*"
  | starStar => "**"
  | slash => "/"
  | percent => "%"
  | shiftLeft => "<<"
  | shiftRight => ">>"
  | amp => "&"
  | pipe => "|"
  | caret => "^"
  | tilde => "~"
  | bang => "!"
  | ampAmp => "&&"
  | pipePipe => "||"
  | equal => "=="
  | notEqual => "!="
  | less => "<"
  | greater => ">"
  | lessEqual => "<="
  | greaterEqual => ">="
  | plusPlus => "++"
  | minusMinus => "--"

/-- The marks of one length. -/
def ofLength : Nat → List Mark
  | 3 => [shiftLeftAssign, shiftRightAssign]
  | 2 => [arrow, plusAssign, minusAssign, starAssign, slashAssign, percentAssign, pipeAssign,
      caretAssign, ampAssign, starStar, shiftLeft, shiftRight, ampAmp, pipePipe, equal, notEqual,
      lessEqual, greaterEqual, plusPlus, minusMinus]
  | 1 => [openParen, closeParen, openBrace, closeBrace, openBracket, closeBracket, semicolon,
      comma, dot, question, colon, assign, plus, minus, star, slash, percent, amp, pipe, caret,
      tilde, bang, less, greater]
  | _ => []

/-- Every mark, longer marks first. -/
def all : List Mark := ofLength 3 ++ ofLength 2 ++ ofLength 1

/-- The longest mark that a text begins with. -/
def longest? (cs : List Char) : Option Mark :=
  all.find? fun m => m.text.toList.isPrefixOf cs

end Mark

inductive Kind where
  | keyword (k : Keyword)
  | mark (m : Mark)
  | number
  | string
  | identifier
  deriving DecidableEq, Repr

/-- How a kind is written in a message: its own spelling, or the name of its
class. -/
def Kind.text : Kind → String
  | keyword k => k.text
  | mark m => m.text
  | number => "<number>"
  | string => "<string>"
  | identifier => "<ident>"

end SafeSubset.Token
