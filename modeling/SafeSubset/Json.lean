/-! JSON values and their layout on several lines. An object keeps its members
in the order given. -/
namespace SafeSubset

inductive Json where
  | null
  | bool (b : Bool)
  | number (n : Nat)
  | string (s : String)
  | array (items : List Json)
  | object (members : List (String × Json))
  deriving Repr

namespace Json

def ofOption {α : Type} (f : α → Json) : Option α → Json
  | some a => f a
  | none => null

/-- The four hexadecimal digits of a control character. -/
def controlDigits (c : Char) : List Char :=
  let digits := Nat.toDigits 16 c.toNat
  List.replicate (4 - digits.length) '0' ++ digits

/-- A character inside a string. Only quotes, backslashes and controls are
escaped. -/
def escapedChar (c : Char) : List Char :=
  if c = '"' then ['\\', '"']
  else if c = '\\' then ['\\', '\\']
  else if c = '\x08' then ['\\', 'b']
  else if c = '\x0c' then ['\\', 'f']
  else if c = '\n' then ['\\', 'n']
  else if c = '\r' then ['\\', 'r']
  else if c = '\t' then ['\\', 't']
  else if c.toNat < 32 then '\\' :: 'u' :: controlDigits c
  else [c]

def quoted (s : String) : String :=
  String.ofList ('"' :: s.toList.flatMap escapedChar ++ ['"'])

/-- The start of a line at a depth. -/
def lineStart (depth : Nat) : String := "\n" ++ String.ofList (List.replicate (2 * depth) ' ')

mutual
/-- The layout of a value at a depth: one line for each item and each member,
two spaces further in than the brackets, and nothing between empty ones. -/
def layout (depth : Nat) : Json → String
  | null => "null"
  | bool b => if b then "true" else "false"
  | number n => toString n
  | string s => quoted s
  | array [] => "[]"
  | array (j :: js) =>
      "[" ++ lineStart (depth + 1) ++ layout (depth + 1) j ++ layoutItems (depth + 1) js
        ++ lineStart depth ++ "]"
  | object [] => "\x7b\x7d"
  | object ((key, j) :: ms) =>
      "\x7b" ++ lineStart (depth + 1) ++ quoted key ++ ": " ++ layout (depth + 1) j
        ++ layoutMembers (depth + 1) ms ++ lineStart depth ++ "\x7d"

/-- The items behind the first. -/
def layoutItems (depth : Nat) : List Json → String
  | [] => ""
  | j :: js => "," ++ lineStart depth ++ layout depth j ++ layoutItems depth js

/-- The members behind the first. -/
def layoutMembers (depth : Nat) : List (String × Json) → String
  | [] => ""
  | (key, j) :: ms =>
      "," ++ lineStart depth ++ quoted key ++ ": " ++ layout depth j ++ layoutMembers depth ms
end

/-- A value on several lines. -/
def pretty (j : Json) : String := layout 0 j

/-- Puts a member in front of the first whose key does not come before its
own. -/
def insertMember (key : String) (j : Json) : List (String × Json) → List (String × Json)
  | [] => [(key, j)]
  | (key', j') :: ms =>
      if key' < key then (key', j') :: insertMember key j ms else (key, j) :: (key', j') :: ms

mutual
/-- The value with the members of every object in the order of their keys. -/
def sorted : Json → Json
  | null => null
  | bool b => bool b
  | number n => number n
  | string s => string s
  | array js => array (sortedItems js)
  | object ms => object (sortedMembers ms)

def sortedItems : List Json → List Json
  | [] => []
  | j :: js => sorted j :: sortedItems js

def sortedMembers : List (String × Json) → List (String × Json)
  | [] => []
  | (key, j) :: ms => insertMember key (sorted j) (sortedMembers ms)
end

end Json
end SafeSubset
