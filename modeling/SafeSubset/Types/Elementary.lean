import SafeSubset.Types.Basic

/-! The types that have a name of their own. The size of an integer or of a
byte string may follow its name as a numeral. -/
namespace SafeSubset

/-- The value of decimal digits. -/
def digitsValue (cs : List Char) : Nat :=
  cs.foldl (fun n c => 10 * n + (c.toNat - '0'.toNat)) 0

/-- The value of one or more digits. -/
def numeral? (digits : List Char) : Option Nat :=
  if digits ≠ [] ∧ digits.all Char.isDigit then some (digitsValue digits) else none

/-- A size is a numeral behind at most one plus sign. Zeros may lead. -/
def size? : List Char → Option Nat
  | '+' :: digits => numeral? digits
  | digits => numeral? digits

/-- The number of bits of an integer type: a positive multiple of eight up to
256, which is also what an absent size means. -/
def integerBits? (cs : List Char) : Option Nat :=
  if cs = [] then some 256
  else (size? cs).filter fun bits => 0 < bits && bits ≤ 256 && bits % 8 = 0

/-- The type that a sized name spells. -/
def Ty.ofSizedName? : List Char → Option Ty
  | 'u' :: 'i' :: 'n' :: 't' :: size =>
      (integerBits? size).map fun bits => .integer (.unsigned bits)
  | 'i' :: 'n' :: 't' :: size => (integerBits? size).map fun bits => .integer (.signedOf bits)
  | 'b' :: 'y' :: 't' :: 'e' :: 's' :: size =>
      ((size? size).filter fun n => 1 ≤ n && n ≤ 32).map .fixedBytes
  | _ => none

/-- The type that a word names, if it is an elementary type's name. -/
def Ty.ofName? (name : String) : Option Ty :=
  match name with
  | "bool" => some .bool
  | "string" => some .string
  | "address" => some .address
  | "bytes" => some .bytes
  | "byte" => some (.fixedBytes 1)
  | _ => Ty.ofSizedName? name.toList

end SafeSubset
