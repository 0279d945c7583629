import SafeSubset.Proofs.Syntax.Roots
import SafeSubset.Typing.SourceUnit

/-! Where the types of a file come from. Each root has been typed as a whole in some
scope, so a created type has the type that the file gives to its name. -/
namespace SafeSubset.Typing

variable {α : Type} {scope : Scope} {s : Surroundings}

/-- Whether an expression has been typed in some scope. -/
def Typed (α : Type) (d : Expr Ty) : Prop := ∃ (scope : Scope) (e : Expr α), d = annotate scope e

theorem typed_expr (s : Surroundings) (locals : Locals) (e : Expr α) : Typed α (s.expr locals e) :=
  ⟨_, e, rfl⟩

theorem typed_optional (locals : Locals) (e : Option (Expr α)) :
    ∀ d ∈ (e.map (s.expr locals)).toList, Typed α d := by
  cases e with
  | none => simp
  | some e => simpa using typed_expr s locals e

theorem typed_all (locals : Locals) (es : List (Expr α)) :
    ∀ d ∈ es.map (s.expr locals), Typed α d := by
  intro d member
  obtain ⟨e, -, rfl⟩ := List.mem_map.1 member
  exact typed_expr s locals e

mutual
theorem typed_stmt (locals : Locals) : (st : Stmt α) → ∀ d ∈ (s.stmt locals st).1.roots, Typed α d
  | .block _ body => by simpa [Surroundings.stmt, Stmt.roots] using typed_body ([] :: locals) body
  | .declare _ v => by
      simpa [Surroundings.stmt, Stmt.roots, Surroundings.var] using typed_optional locals v.value
  | .expression _ e | .emit _ e => by
      simpa [Surroundings.stmt, Stmt.roots] using typed_expr s locals e
  | .if _ c t none => by
      have onTrue := typed_stmt locals t
      simpa [Surroundings.stmt, Stmt.roots] using ⟨typed_expr s locals c, onTrue⟩
  | .if _ c t (some f) => by
      have onTrue := typed_stmt locals t
      have onFalse := typed_stmt (s.stmt locals t).2 f
      simpa [Surroundings.stmt, Stmt.roots, or_imp, forall_and] using
        ⟨typed_expr s locals c, onTrue, onFalse⟩
  | .while _ c b => by
      have body := typed_stmt locals b
      simpa [Surroundings.stmt, Stmt.roots] using ⟨typed_expr s locals c, body⟩
  | .doWhile _ b c => by
      have body := typed_stmt locals b
      simpa [Surroundings.stmt, Stmt.roots, or_imp, forall_and] using ⟨body, typed_expr s locals c⟩
  | .for _ none c step b => by
      have body := typed_stmt ([] :: locals) b
      have condition := typed_optional (s := s) ([] :: locals) c
      have stepped := typed_optional (s := s) ([] :: locals) step
      simpa only [Surroundings.stmt, Stmt.roots, List.mem_append, or_imp, forall_and] using
        ⟨⟨condition, stepped⟩, body⟩
  | .for _ (some i) c step b => by
      have initial := typed_stmt ([] :: locals) i
      have body := typed_stmt (s.stmt ([] :: locals) i).2 b
      have condition := typed_optional (s := s) (s.stmt ([] :: locals) i).2 c
      have stepped := typed_optional (s := s) (s.stmt ([] :: locals) i).2 step
      simpa only [Surroundings.stmt, Stmt.roots, List.mem_append, or_imp, forall_and] using
        ⟨⟨⟨initial, condition⟩, stepped⟩, body⟩
  | .return _ value => by
      simpa only [Surroundings.stmt, Stmt.roots] using typed_optional locals value
  | .break _ | .continue _ | .throw _ => by simp [Surroundings.stmt, Stmt.roots]

theorem typed_body (locals : Locals) : (body : List (Stmt α)) →
    ∀ d ∈ Stmt.rootsAll (s.body locals body), Typed α d
  | [] => by simp [Surroundings.body, Stmt.rootsAll]
  | st :: rest => by
      have first := typed_stmt locals st
      have others := typed_body (s.stmt locals st).2 rest
      simpa only [Surroundings.body, Stmt.rootsAll, List.mem_append, or_imp, forall_and] using
        ⟨first, others⟩
end

theorem typed_member (m : Member α) : ∀ d ∈ (s.member m).roots, Typed α d := by
  cases m with
  | state v => exact typed_optional [] v.value
  | modifier m => exact typed_body _ m.body.body
  | function f =>
      intro d member
      rcases List.mem_append.1 member with member | member
      · obtain ⟨m, inside, member⟩ := List.mem_flatMap.1 member
        obtain ⟨m, -, rfl⟩ := List.mem_map.1 inside
        exact typed_all _ m.args d member
      · cases body : f.body with
        | none => simp [Surroundings.function, body] at member
        | some b =>
            simp only [Surroundings.function, body, Option.map_some, Option.getD_some] at member
            exact typed_body _ b.body d member
  | _ => simp [Surroundings.member, Member.roots]

/-- Every root of a typed contract has been typed as a whole. -/
theorem typed_contractDef (s : Surroundings) (c : Contract α) :
    ∀ d ∈ (s.contractDef c).roots, Typed α d := by
  intro d member
  rcases List.mem_append.1 member with member | member
  · obtain ⟨b, inside, member⟩ := List.mem_flatMap.1 member
    obtain ⟨b, -, rfl⟩ := List.mem_map.1 inside
    cases args : b.args with
    | none => simp [Surroundings.base, Base.roots, args] at member
    | some es =>
        simp only [Surroundings.base, Base.roots, args, Option.map_some, Option.getD_some] at member
        exact typed_all [] es d member
  · obtain ⟨m, inside, member⟩ := List.mem_flatMap.1 member
    obtain ⟨m, -, rfl⟩ := List.mem_map.1 inside
    exact typed_member m d member

theorem children_annotate (scope : Scope) (e : Expr α) :
    (annotate scope e).children = e.children.map (annotate scope) := by
  have all : ∀ es : List (Expr α), annotateAll scope es = es.map (annotate scope) := by
    intro es
    induction es with
    | nil => rfl
    | cons e es ih => simp [annotateAll, ih]
  cases e with
  | index i base k => cases k <;> rfl
  | _ => simp [annotate, Expr.children, all]

/-- What is in a typed expression has been typed in the same scope. -/
theorem mem_subexpressions_annotate {scope : Scope} {e : Expr α} {d : Expr Ty}
    (member : d ∈ (annotate scope e).subexpressions) : ∃ e' : Expr α, d = annotate scope e' := by
  induction e using Expr.induction_children with
  | node e ih =>
      rcases Expr.mem_subexpressions.1 member with rfl | ⟨c, child, inside⟩
      · exact ⟨e, rfl⟩
      · rw [children_annotate] at child
        obtain ⟨part, known, rfl⟩ := List.mem_map.1 child
        exact ih part known inside

/-- What is in a typed expression has been typed. -/
theorem Typed.mem {e : Expr Ty} (typed : Typed α e) : ∀ d ∈ e.subexpressions, Typed α d := by
  obtain ⟨scope, e, rfl⟩ := typed
  intro d member
  exact ⟨scope, mem_subexpressions_annotate member⟩

/-- A name that a file defines is not the checked type's. -/
theorem isChecked_named (names : TypeNames) (n : String) : (names.named n).isChecked = false := by
  unfold TypeNames.named
  repeat' split
  all_goals rfl

/-- A created type with a name of its own is no checked type. -/
theorem Typed.creates {i : Info Ty} {t : TypeName} (typed : Typed α (.new i t))
    (checked : i.note.isChecked = true) : ∀ s p, t ≠ .user s p := by
  rintro s p rfl
  obtain ⟨scope, e, same⟩ := typed
  cases e with
  | new j type =>
      cases same
      exact Bool.false_ne_true ((isChecked_named _ _).symm.trans checked)
  | index j base k => cases k <;> cases same
  | _ => cases same

end SafeSubset.Typing
