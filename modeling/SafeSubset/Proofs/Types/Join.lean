import SafeSubset.Typing.Expression
import Mathlib.Data.List.Perm.Basic

/-! Types taken together. Joining types does not depend on their order or on how they are grouped,
so that a chain of operations has one type however it is bracketed and in whatever order its
operands stand. -/
namespace SafeSubset

variable {α : Type}

namespace Ty

/-- The types that a join changes: integers and number literals. -/
inductive Numeric : Ty → Prop
  | integer (i : IntegerType) : Numeric (integer i)
  | rational : Numeric rational

theorem join_self (t : Ty) : t.join t = t := if_pos rfl

theorem join_integer {i j : IntegerType} (other : i ≠ j) : (integer i).join (integer j) =
    if !i.address && !j.address && i.signed == j.signed then
      integer (if j.bits ≤ i.bits then i else j)
    else unknown :=
  if_neg fun same => other (integer.inj same)

/-- Types that differ have a join only if both are numeric. -/
theorem join_eq_unknown {a b : Ty} (other : a ≠ b) (plain : ¬ (a.Numeric ∧ b.Numeric)) :
    a.join b = unknown := by
  unfold join
  rw [if_neg other]
  split
  · exact absurd ⟨.rational, .integer _⟩ plain
  · exact absurd ⟨.integer _, .rational⟩ plain
  · exact absurd ⟨.integer _, .integer _⟩ plain
  · rfl

theorem Numeric.join {a b : Ty} (first : a.Numeric) (second : b.Numeric) :
    (a.join b).Numeric ∨ a.join b = unknown := by
  unfold Ty.join
  split
  · exact .inl first
  · split
    · exact .inl second
    · exact .inl first
    · split
      · exact .inl (.integer _)
      · exact .inr rfl
    · exact .inr rfl

theorem not_numeric_unknown : ¬ unknown.Numeric := nofun

theorem unknown_join (t : Ty) : unknown.join t = unknown := by
  by_cases same : unknown = t
  · rw [← same, join_self]
  · exact join_eq_unknown same fun numeric => not_numeric_unknown numeric.1

theorem join_unknown (t : Ty) : t.join unknown = unknown := by
  by_cases same : t = unknown
  · rw [same, join_self]
  · exact join_eq_unknown same fun numeric => not_numeric_unknown numeric.2

theorem Numeric.join_comm {a b : Ty} (first : a.Numeric) (second : b.Numeric) :
    a.join b = b.join a := by
  cases first with
  | rational => cases second <;> rfl
  | integer i =>
      cases second with
      | rational => rfl
      | integer j =>
          by_cases same : i = j
          · rw [same]
          · rw [join_integer same, join_integer (Ne.symm same)]
            -- Two integers of one width and signedness that are no addresses are the same.
            grind [IntegerType]

theorem join_comm (a b : Ty) : a.join b = b.join a := by
  by_cases same : a = b
  · rw [same]
  by_cases numeric : a.Numeric ∧ b.Numeric
  · exact numeric.1.join_comm numeric.2
  · rw [join_eq_unknown same numeric, join_eq_unknown (Ne.symm same) (numeric ∘ And.symm)]

theorem Numeric.join_assoc {a b c : Ty} (first : a.Numeric) (second : b.Numeric)
    (third : c.Numeric) : (a.join b).join c = a.join (b.join c) := by
  cases first <;> cases second <;> cases third
  all_goals unfold Ty.join; grind [IntegerType]

/-- Three types of which one is not numeric have a join only if they are the same type. -/
theorem join_join_of_plain {a b c : Ty} (plain : ¬ (a.Numeric ∧ b.Numeric ∧ c.Numeric)) :
    (a.join b).join c = if a = b ∧ b = c then a else unknown := by
  by_cases first : a = b
  · subst first
    rw [join_self]
    by_cases second : a = c
    · rw [if_pos ⟨rfl, second⟩, second, join_self]
    · rw [if_neg fun both => second both.2]
      exact join_eq_unknown second fun numeric => plain ⟨numeric.1, numeric.1, numeric.2⟩
  · rw [if_neg fun both => first both.1]
    by_cases numeric : a.Numeric ∧ b.Numeric
    · rcases numeric.1.join numeric.2 with met | apart
      · have third : ¬ c.Numeric := fun third => plain ⟨numeric.1, numeric.2, third⟩
        exact join_eq_unknown (fun same => third (same ▸ met)) fun both => third both.2
      · rw [apart, unknown_join]
    · rw [join_eq_unknown first numeric, unknown_join]

theorem join_assoc (a b c : Ty) : (a.join b).join c = a.join (b.join c) := by
  by_cases numeric : a.Numeric ∧ b.Numeric ∧ c.Numeric
  · exact numeric.1.join_assoc numeric.2.1 numeric.2.2
  -- Without a numeric reading either grouping asks for three equal types.
  have turned : ¬ (c.Numeric ∧ b.Numeric ∧ a.Numeric) := fun ⟨third, second, first⟩ =>
    numeric ⟨first, second, third⟩
  rw [join_comm a (b.join c), join_comm b, join_join_of_plain numeric, join_join_of_plain turned]
  grind

instance : Std.Commutative join := ⟨join_comm⟩

instance : Std.Associative join := ⟨join_assoc⟩

/-- The join of all types of a list, of which an empty one has none. -/
def together (ts : List Ty) : Option Ty := (ts.map some).foldr (Option.merge join) none

theorem together_append (ts us : List Ty) :
    together (ts ++ us) = (together ts).merge join (together us) := by
  induction ts with
  | nil => exact Option.merge_none_left.symm
  | cons t ts ih =>
      calc (some t).merge join (together (ts ++ us))
          _ = (some t).merge join ((together ts).merge join (together us)) := by rw [ih]
          _ = ((some t).merge join (together ts)).merge join (together us) :=
            (Std.Associative.assoc _ _ _).symm

theorem eq_of_perm {ts us : List Ty} {t u : Ty} (same : ts.Perm us)
    (left : together ts = some t) (right : together us = some u) : t = u := by
  have met : together ts = together us := (same.map some).foldr_op_eq
  rw [left, right] at met
  exact Option.some.inj met

end Ty

/-- Whether an operation takes the types of its operands together: arithmetic and bitwise
operations do, other than powers and shifts. -/
def BinaryOp.joins : BinaryOp → Bool
  | multiply | divide | modulo | add | subtract | bitAnd | bitXor | bitOr => true
  | _ => false

theorem BinaryOp.resultType_of_joins {op : BinaryOp} (joins : op.joins = true) (a b : Ty) :
    op.resultType a b = a.join b := by
  cases op <;> first | rfl | cases joins

/-- A chain of operations on operands of known types, bracketed in one way. -/
inductive Chain where
  | operand (t : Ty)
  | operation (op : BinaryOp) (joins : op.joins = true) (l r : Chain)

namespace Chain

def type : Chain → Ty
  | operand t => t
  | operation op _ l r => op.resultType l.type r.type

/-- The types of the operands, in source order. -/
def operands : Chain → List Ty
  | operand t => [t]
  | operation _ _ l r => l.operands ++ r.operands

theorem together_operands (c : Chain) : Ty.together c.operands = some c.type := by
  induction c with
  | operand t => rfl
  | operation op joins l r left right =>
      rw [operands, type, Ty.together_append, left, right, Option.merge_some_some,
        op.resultType_of_joins joins]

theorem type_of_perm {c d : Chain} (same : c.operands.Perm d.operands) : c.type = d.type :=
  Ty.eq_of_perm same c.together_operands d.together_operands

end Chain

namespace Typing

/-- The types of the operands of the chain that an expression is, parentheses left aside. -/
def operandTypes (scope : Scope) : Expr α → List Ty
  | .binary i op l r =>
      if op.joins then operandTypes scope l ++ operandTypes scope r
      else [(annotate scope (.binary i op l r)).type]
  | .tuple _ [e] => operandTypes scope e
  | e => [(annotate scope e).type]

theorem together_operandTypes (scope : Scope) (e : Expr α) :
    Ty.together (operandTypes scope e) = some (annotate scope e).type := by
  fun_induction operandTypes scope e with
  | case1 i op l r joins left right =>
      rw [Ty.together_append, left, right, Option.merge_some_some]
      exact congrArg some (op.resultType_of_joins joins _ _).symm
  | case2 i op l r => rfl
  | case3 i e inner => exact inner
  | case4 e => rfl

/-- An expression keeps its type when its operands are bracketed and ordered otherwise. -/
theorem type_of_perm_operandTypes {scope : Scope} {e e' : Expr α}
    (same : (operandTypes scope e).Perm (operandTypes scope e')) :
    (annotate scope e).type = (annotate scope e').type :=
  Ty.eq_of_perm same (together_operandTypes scope e) (together_operandTypes scope e')

end Typing

/-- Joining is commutative, associative and idempotent, with the unknown type absorbing, so that
chains of the same operands have one type and are checked alike, in an annotated file too. -/
theorem join_laws :
    (∀ a b : Ty, a.join b = b.join a) ∧
    (∀ a b c : Ty, (a.join b).join c = a.join (b.join c)) ∧
    (∀ t : Ty, t.join t = t) ∧
    (∀ t : Ty, Ty.unknown.join t = .unknown ∧ t.join .unknown = .unknown) ∧
    (∀ c d : Chain, c.operands.Perm d.operands →
      c.type = d.type ∧ c.type.isChecked = d.type.isChecked) ∧
    ∀ (scope : Typing.Scope) (e e' : Expr Unit),
      (Typing.operandTypes scope e).Perm (Typing.operandTypes scope e') →
        (Typing.annotate scope e).type = (Typing.annotate scope e').type := by
  refine ⟨Ty.join_comm, Ty.join_assoc, Ty.join_self,
    fun t => ⟨t.unknown_join, t.join_unknown⟩, fun c d same => ?_,
    fun scope e e' => Typing.type_of_perm_operandTypes⟩
  have one := Chain.type_of_perm same
  exact ⟨one, congrArg Ty.isChecked one⟩

theorem join_laws_regrouped :
    let small := Chain.operand (.integer (.unsigned 8))
    let wide := Chain.operand .uint256
    let literal := Chain.operand .rational
    let c := Chain.operation .add rfl (.operation .multiply rfl small literal) wide
    let d := Chain.operation .bitOr rfl literal (.operation .modulo rfl wide small)
    let scope : Typing.Scope :=
      ⟨⟨⟨[], [], []⟩, []⟩, ⟨"C", [("a", .integer (.unsigned 8))], []⟩, [[("b", .uint256)]]⟩
    let i : Info Unit := ⟨.point 0, ()⟩
    let e := Expr.binary i .add (.binary i .multiply (.identifier i "a") (.number i "1"))
      (.identifier i "b")
    let e' := Expr.binary i .bitOr (.number i "1")
      (.tuple i [.binary i .modulo (.identifier i "b") (.identifier i "a")])
    (c.operands.Perm d.operands ∧ c.type = .uint256 ∧
      c.type = d.type ∧ c.type.isChecked = d.type.isChecked) ∧
    (Typing.operandTypes scope e).Perm (Typing.operandTypes scope e') ∧
      (Typing.annotate scope e).type = (Typing.annotate scope e').type := by
  intro small wide literal c d scope i e e'
  have same : c.operands.Perm d.operands := by decide
  have same' : (Typing.operandTypes scope e).Perm (Typing.operandTypes scope e') := by decide
  obtain ⟨-, -, -, -, chains, written⟩ := join_laws
  exact ⟨⟨same, by decide, chains c d same⟩, same', written scope e e' same'⟩

end SafeSubset
