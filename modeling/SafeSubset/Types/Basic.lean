/-! The types that expressions have. An address is an integer of 160 bits
marked as such, because it takes part in comparisons but in no widening; a
literal keeps a type of its own until it meets another operand. -/
namespace SafeSubset

structure IntegerType where
  bits : Nat
  signed : Bool
  address : Bool
  deriving DecidableEq, Repr

namespace IntegerType

def unsigned (bits : Nat) : IntegerType := ⟨bits, false, false⟩

def signedOf (bits : Nat) : IntegerType := ⟨bits, true, false⟩

def addressType : IntegerType := ⟨160, false, true⟩

end IntegerType

inductive Ty where
  | integer (i : IntegerType)
  | bool
  | string
  | bytes
  | fixedBytes (size : Nat)
  /-- A number literal, which adopts the type of the other operand. -/
  | rational
  | literalString
  | mapping (key value : Ty)
  | array (element : Ty)
  | contract (name : String)
  | struct (name : String)
  | enum (name : String)
  | tuple (items : List Ty)
  | unknown
  deriving Repr, Inhabited

namespace Ty

mutual
/-- Equality of types as a test. -/
def same : Ty → Ty → Bool
  | integer i, integer j => i = j
  | bool, bool | string, string | bytes, bytes | rational, rational
  | literalString, literalString | unknown, unknown => true
  | fixedBytes n, fixedBytes m => n = m
  | mapping k v, mapping k' v' => same k k' && same v v'
  | array t, array t' => same t t'
  | contract n, contract m | struct n, struct m | enum n, enum m => n = m
  | tuple ts, tuple ts' => sameAll ts ts'
  | _, _ => false

def sameAll : List Ty → List Ty → Bool
  | [], [] => true
  | a :: as, b :: bs => same a b && sameAll as bs
  | _, _ => false
end

mutual
theorem same_iff : (a b : Ty) → (same a b = true ↔ a = b)
  | integer _, b | bool, b | string, b | bytes, b | fixedBytes _, b | rational, b
  | literalString, b | contract _, b | struct _, b | enum _, b | unknown, b => by
      cases b <;> simp [same]
  | mapping k v, b => by
      cases b <;> simp [same, same_iff k, same_iff v]
  | array t, b => by
      cases b <;> simp [same, same_iff t]
  | tuple ts, b => by
      cases b <;> simp [same, sameAll_iff ts]

theorem sameAll_iff : (as bs : List Ty) → (sameAll as bs = true ↔ as = bs)
  | [], bs => by cases bs <;> simp [sameAll]
  | a :: as, bs => by
      cases bs <;> simp [sameAll, same_iff a, sameAll_iff as]
end

instance : DecidableEq Ty := fun a b => decidable_of_iff _ (same_iff a b)

/-- The type whose arithmetic is checked. -/
def uint256 : Ty := integer (.unsigned 256)

def address : Ty := integer .addressType

/-- Whether arithmetic of this type can overflow unnoticed and is checked. -/
def isChecked (t : Ty) : Bool := t = uint256

def integer? : Ty → Option IntegerType
  | integer i => some i
  | _ => none

mutual
/-- How a type is written. -/
def text : Ty → String
  | integer i =>
      if i.address then "address" else (if i.signed then "int" else "uint") ++ toString i.bits
  | bool => "bool"
  | string => "string"
  | bytes => "bytes"
  | fixedBytes n => "bytes" ++ toString n
  | rational => "rational"
  | literalString => "literal_string"
  | mapping k v => "mapping(" ++ text k ++ " => " ++ text v ++ ")"
  | array t => text t ++ "[]"
  | contract n | struct n | enum n => n
  | tuple ts => "tuple(" ++ String.intercalate "," (texts ts) ++ ")"
  | unknown => "unknown"

def texts : List Ty → List String
  | [] => []
  | t :: ts => text t :: texts ts
end

end Ty
end SafeSubset
