import SafeSubset.Text.Combining
import SafeSubset.Text.Unprintable

/-! Quoting of text inside a message. The quoted form shows every character
that could not be told apart on a terminal by an escape: the two characters
that quoting itself uses, the common controls by a letter, and all that has no
printed form, or only extends its neighbour, by its code point. -/
namespace SafeSubset.Text

/-- The hexadecimal digits of a code point, without leading zeros. -/
def codePoint (c : Char) : List Char := Nat.toDigits 16 c.toNat

def quotedChar (c : Char) : List Char :=
  if c = '\x00' then ['\\', '0']
  else if c = '\t' then ['\\', 't']
  else if c = '\r' then ['\\', 'r']
  else if c = '\n' then ['\\', 'n']
  else if c = '\\' then ['\\', '\\']
  else if c = '"' then ['\\', '"']
  else if isCombining c || isUnprintable c then
    ['\\', 'u', '\x7b'] ++ codePoint c ++ ['\x7d']
  else [c]

/-- The text between double quotes, with its escapes. -/
def quoted (cs : List Char) : List Char :=
  '"' :: cs.flatMap quotedChar ++ ['"']

end SafeSubset.Text
