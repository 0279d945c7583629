import SafeSubset.Proofs.Syntax.Places
import SafeSubset.Proofs.Typing.Afresh
import SafeSubset.Proofs.Typing.StateVariables

/-! Where declarations are visible. What stands in a block, in a `for` statement or in a body
does not change the types around it, and a name in a body is typed by the nearest declaration
before it. -/
namespace SafeSubset

open List (Forall₂)
open Typing

variable {α : Type}

/-- A statement with a scope of its own, which is a block or a `for` statement. -/
def Stmt.IsScope : Stmt α → Prop
  | .block .. | .for .. => True
  | _ => False

namespace Typing

section Statements

/-- The local variables behind some statements. -/
def behind (s : Surroundings) (locals : Locals) (body : List (Stmt α)) : Locals :=
  body.foldl (fun locals st => (s.stmt locals st).2) locals

/-- What typing makes of a statement in which one is left out: what is around that one with its
types, the local variables where it stands, and those behind the whole statement. -/
structure TypedHole where
  hole : Hole Ty
  inner : Locals
  after : Locals

/-- Types what is around a statement with a scope of its own. -/
def Surroundings.hole (s : Surroundings) (locals : Locals) : Hole α → TypedHole
  | .here => ⟨.here, locals, locals⟩
  | .block span before h after =>
      let h := s.hole (behind s ([] :: locals) before) h
      ⟨.block span (s.body ([] :: locals) before) h.hole (s.body h.after after), h.inner, locals⟩
  | .onTrue span c h none =>
      let h := s.hole locals h
      ⟨.onTrue span (s.expr locals c) h.hole none, h.inner, h.after⟩
  | .onTrue span c h (some f) =>
      let h := s.hole locals h
      let (f, after) := s.stmt h.after f
      ⟨.onTrue span (s.expr locals c) h.hole (some f), h.inner, after⟩
  | .onFalse span c t h =>
      let (t, between) := s.stmt locals t
      let h := s.hole between h
      ⟨.onFalse span (s.expr locals c) t h.hole, h.inner, h.after⟩
  | .while span c h =>
      let h := s.hole locals h
      ⟨.while span (s.expr locals c) h.hole, h.inner, h.after⟩
  | .doWhile span h c =>
      let h := s.hole locals h
      ⟨.doWhile span h.hole (s.expr locals c), h.inner, h.after⟩
  | .init span h c step b =>
      let h := s.hole ([] :: locals) h
      ⟨.init span h.hole (c.map (s.expr h.after)) (step.map (s.expr h.after)) (s.stmt h.after b).1,
        h.inner, locals⟩
  | .loop span none c step h =>
      let next := [] :: locals
      let h := s.hole next h
      ⟨.loop span none (c.map (s.expr next)) (step.map (s.expr next)) h.hole, h.inner, locals⟩
  | .loop span (some i) c step h =>
      let (i, next) := s.stmt ([] :: locals) i
      let h := s.hole next h
      ⟨.loop span (some i) (c.map (s.expr next)) (step.map (s.expr next)) h.hole, h.inner, locals⟩

def Surroundings.gap (s : Surroundings) (locals : Locals) (g : Gap α) : Gap Ty :=
  let h := s.hole (behind s locals g.before) g.hole
  ⟨s.body locals g.before, h.hole, s.body h.after g.after⟩

variable (s : Surroundings) (locals : Locals)

/-- Nothing that is declared in a scope is visible behind it. -/
theorem stmt_isScope {st : Stmt α} (scope : st.IsScope) : (s.stmt locals st).2 = locals := by
  cases st with
  | block span body => rfl
  | «for» span i c step b => cases i <;> rfl
  | _ => exact scope.elim

theorem body_append (before after : List (Stmt α)) : s.body locals (before ++ after) =
    s.body locals before ++ s.body (behind s locals before) after := by
  induction before generalizing locals with
  | nil => rfl
  | cons st before ih => exact congrArg (List.cons _) (ih _)

/-- What is around a statement behind which nothing more is visible is typed whatever the
statement is. -/
theorem stmt_fill {st : Stmt α} (quiet : ∀ locals, (s.stmt locals st).2 = locals) (locals : Locals) :
    (h : Hole α) → s.stmt locals (h.fill st) =
      ((s.hole locals h).hole.fill (s.stmt (s.hole locals h).inner st).1, (s.hole locals h).after)
  | .here => Prod.ext rfl (quiet locals)
  | .block _ before h _ => by
      simp only [Hole.fill, Surroundings.stmt, Surroundings.hole, body_append, Surroundings.body,
        stmt_fill quiet _ h]
  | .onTrue _ _ h none | .onTrue _ _ h (some _) | .onFalse _ _ _ h | .while _ _ h | .doWhile _ h _
  | .init _ h _ _ _ | .loop _ none _ _ h | .loop _ (some _) _ _ h => by
      simp only [Hole.fill, Surroundings.stmt, Surroundings.hole, stmt_fill quiet _ h]

/-- The local variables where a statement stands that is left out of a body. -/
def Surroundings.inner (s : Surroundings) (locals : Locals) (g : Gap α) : Locals :=
  (s.hole (behind s locals g.before) g.hole).inner

theorem body_fill {st : Stmt α} (quiet : ∀ locals, (s.stmt locals st).2 = locals) (g : Gap α) :
    s.body locals (g.fill st) =
      (s.gap locals g).fill (s.stmt (s.inner locals g) st).1 := by
  simp only [Gap.fill, Surroundings.gap, Surroundings.inner, body_append, Surroundings.body,
    stmt_fill s quiet]

theorem optional_forget_expr (e : Option (Expr α)) :
    (e.map (s.expr locals)).map Expr.forget = e.map Expr.forget := by
  cases e <;> simp

/-- Typing what is around a statement adds notes alone. -/
theorem mapRoots_forget_hole (locals : Locals) : (h : Hole α) →
    (s.hole locals h).hole.mapRoots Expr.forget = h.mapRoots Expr.forget
  | .here => rfl
  | .block _ before h _ => by
      simp only [Surroundings.hole, Hole.mapRoots, mapRoots_forget_body, mapRoots_forget_hole _ h]
  | .onTrue _ _ h none | .onTrue _ _ h (some _) | .onFalse _ _ _ h | .while _ _ h | .doWhile _ h _
  | .init _ h _ _ _ | .loop _ none _ _ h | .loop _ (some _) _ _ h => by
      simp only [Surroundings.hole, Hole.mapRoots, forget_expr, optional_forget_expr, Option.map_none,
        Option.map_some, mapRoots_forget_stmt, mapRoots_forget_hole _ h]

theorem mapRoots_forget_gap (g : Gap α) :
    (s.gap locals g).mapRoots Expr.forget = g.mapRoots Expr.forget := by
  simp only [Surroundings.gap, Gap.mapRoots, mapRoots_forget_body, mapRoots_forget_hole]

end Statements

section Files

def Surroundings.header (s : Surroundings) : Header α → Header Ty
  | .function f span => .function (s.function f) span
  | .modifier m span => .modifier (s.modifier m) span

/-- Where the statements of the body that is left out stand. -/
def bodySurroundings (p : BodyPlace α) : Surroundings :=
  surroundings (FileScope.of (p.fill [])) (p.fill []).contracts (p.whole [])

/-- The local variables at the beginning of the body that is left out. -/
def bodyLocals (p : BodyPlace α) : Locals :=
  [] :: (bodySurroundings p).parameters p.header.parameters

/-- Types what is around a body. -/
def typedPlace (p : BodyPlace α) : BodyPlace Ty :=
  let s := bodySurroundings p
  let others := typedNode (FileScope.of (p.fill [])) (p.fill []).contracts
  { before := p.before.map others
    contract := s.contractDef p.contract
    first := p.first.map s.member
    header := s.header p.header
    rest := p.rest.map s.member
    after := p.after.map others
    span := p.span }

theorem member_header (s : Surroundings) (h : Header α) (body : List (Stmt α)) :
    s.member (h.member body) =
      (s.header h).member (s.body ([] :: s.parameters h.parameters) body) := by
  cases h <;> rfl

variable (p : BodyPlace α) (body : List (Stmt α))

/-- What a contract declares does not depend on a body. -/
theorem sameOutline_whole : SameOutline (p.whole body) (p.whole []) := by
  refine ⟨?_, ?_, fun file => ⟨rfl, rfl, ?_, ?_⟩⟩
  · simp only [Contract.structs, BodyPlace.whole, List.filterMap_append, List.filterMap_cons]
    cases p.header <;> rfl
  · simp only [Contract.enums, BodyPlace.whole, List.filterMap_append, List.filterMap_cons]
    cases p.header <;> rfl
  · simp only [stateTypes, BodyPlace.whole, List.filterMap_append, List.filterMap_cons]
    cases p.header <;> rfl
  · simp only [returnTypes, Contract.functions, BodyPlace.whole, List.filterMap_append,
      List.filterMap_cons]
    cases p.header <;> rfl

theorem sameOutline_refl (c : Contract α) : SameOutline c c :=
  ⟨rfl, rfl, fun _ => ⟨rfl, rfl, rfl, rfl⟩⟩

theorem sameOutline_fill : Forall₂ SameOutline (p.fill body).contracts (p.fill []).contracts := by
  have same : ∀ cs : List (Contract α), Forall₂ SameOutline cs cs := fun cs =>
    List.forall₂_same.2 fun c _ => sameOutline_refl c
  rw [BodyPlace.contracts_fill, BodyPlace.contracts_fill]
  exact List.rel_append (same _) (.cons (sameOutline_whole p body) (same _))

theorem surroundings_fill :
    surroundings (FileScope.of (p.fill body)) (p.fill body).contracts (p.whole body) =
      bodySurroundings p :=
  surroundings_same (sameOutline_fill p body) (sameOutline_whole p body)

/-- Whatever a body contains, what is around it is typed alike. -/
theorem annotate_fill : (p.fill body).annotate =
    (typedPlace p).fill ((bodySurroundings p).body (bodyLocals p) body) := by
  have nodes : typedNode (FileScope.of (p.fill body)) (p.fill body).contracts =
      typedNode (FileScope.of (p.fill [])) (p.fill []).contracts := by
    funext n
    cases n with
    | pragma span | inclusion span => rfl
    | contract c =>
        rw [typedNode, typed, surroundings_same (sameOutline_fill p body) (sameOutline_refl c)]
        rfl
  have whole : (bodySurroundings p).contractDef (p.whole body) =
      (typedPlace p).whole ((bodySurroundings p).body (bodyLocals p) body) := by
    simp only [BodyPlace.whole, Surroundings.contractDef, List.map_append, List.map_cons,
      member_header]
    rfl
  have here : typedNode (FileScope.of (p.fill [])) (p.fill []).contracts (.contract (p.whole body)) =
      .contract ((typedPlace p).whole ((bodySurroundings p).body (bodyLocals p) body)) := by
    rw [← whole, ← surroundings_fill p body, ← nodes]
    rfl
  rw [annotate_eq, nodes]
  simp only [BodyPlace.fill, List.map_append, List.map_cons] at here ⊢
  rw [here]
  rfl

/-- The scope of an expression that is put, as a statement, into what is left out of a body. -/
def scopeAt (p : BodyPlace α) (g : Gap α) : Scope :=
  (bodySurroundings p).scope ((bodySurroundings p).inner (bodyLocals p) g)

def typedGap (p : BodyPlace α) (g : Gap α) : Gap Ty := (bodySurroundings p).gap (bodyLocals p) g

/-- An expression that is a statement is typed where it stands, and nothing else depends on it. -/
theorem annotate_expression (g : Gap α) (span : Span) (e : Expr α) :
    (p.fill (g.fill (.expression span e))).annotate =
      (typedPlace p).fill ((typedGap p g).fill (.expression span (annotate (scopeAt p g) e))) := by
  rw [annotate_fill, body_fill _ _ fun _ => rfl]
  rfl

theorem mapRoots_forget_header (s : Surroundings) (h : Header α) :
    (s.header h).mapRoots Expr.forget = h.mapRoots Expr.forget := by
  cases h with
  | function f span =>
      have same := mapRoots_forget_member s (.function f)
      simp only [Surroundings.member, Member.mapRoots, Member.function.injEq] at same
      simp only [Surroundings.header, Header.mapRoots, same]
  | modifier m span =>
      have same := mapRoots_forget_member s (.modifier m)
      simp only [Surroundings.member, Member.mapRoots, Member.modifier.injEq] at same
      simp only [Surroundings.header, Header.mapRoots, same]

/-- Typing what is around a body adds notes alone. -/
theorem mapRoots_forget_place : (typedPlace p).mapRoots Expr.forget = p.mapRoots Expr.forget := by
  simp only [typedPlace, BodyPlace.mapRoots, List.map_map, Function.comp_def,
    mapRoots_forget_typedNode, mapRoots_forget_member, mapRoots_forget_contractDef,
    mapRoots_forget_header]

end Files

section Names

/-- The variables of one scope with their types, those declared later first. -/
def scopeTypes (file : FileScope) (ds : List (Variable Ty)) : List (String × Ty) :=
  ds.reverse.map fun v => (v.name.text, localType file v.type v.value)

def scopesTypes (file : FileScope) (scopes : Scopes Ty) : Locals := scopes.map (scopeTypes file)

/-- The parameter or the return value that a name stands for, the last one of that name. -/
def parameter? (ps : List Parameter) (name : String) : Option Parameter :=
  ps.reverse.find? fun p => p.name.any fun n => n.text == name

/-- The type that the language gives to a name that nothing declares. -/
def givenType (c : Contract α) : (name : String) → Ty
  | "now" => .uint256
  | "this" => .contract c.name.text
  | _ => .unknown

/-- The type of what a name stands for in a body of a contract: of the nearest variable that is
declared before it in the scopes around it, else of the parameter or the return value, else of
the state variable, else what the language gives to it. -/
inductive Stands (file : FileScope) (contracts : List (Contract α)) (c : Contract α)
    (ps : List Parameter) (scopes : Scopes Ty) (name : String) : Ty → Prop where
  | nearest {v : Variable Ty} (found : scopes.nearest? name = some v) :
      Stands file contracts c ps scopes name (localType file v.type v.value)
  | parameter {p : Parameter} (free : scopes.nearest? name = none)
      (found : parameter? ps name = some p) :
      Stands file contracts c ps scopes name (file.resolve p.type)
  | state {v : Variable α} (free : scopes.nearest? name = none) (none : parameter? ps name = none)
      (declared : StateVariable contracts c name v) :
      Stands file contracts c ps scopes name (file.resolve v.type)
  | given (free : scopes.nearest? name = none) (none : parameter? ps name = none)
      (undeclared : ∀ v, ¬ StateVariable contracts c name v) :
      Stands file contracts c ps scopes name (givenType c name)

theorem nearest_cons (ds : List (Variable α)) (scopes : Scopes α) (name : String) :
    Scopes.nearest? (ds :: scopes) name =
      (ds.reverse.find? fun v => v.name.text == name).or (Scopes.nearest? scopes name) := by
  rw [Scopes.nearest?, List.findSome?_cons]
  cases ds.reverse.find? fun v => v.name.text == name <;> rfl

theorem lookup_scopesTypes (file : FileScope) (scopes : Scopes Ty) (outer : Locals) (name : String) :
    (scopesTypes file scopes ++ outer).lookup name =
      ((scopes.nearest? name).map fun v => localType file v.type v.value).or (outer.lookup name) := by
  induction scopes with
  | nil => rfl
  | cons ds scopes ih =>
      show Locals.lookup (scopeTypes file ds :: (scopesTypes file scopes ++ outer)) name = _
      rw [Locals.lookup_cons, ih, scopeTypes, lookup_map, nearest_cons]
      cases ds.reverse.find? fun v => v.name.text == name <;> rfl

theorem lookup_parameters (s : Surroundings) (ps : List Parameter) (name : String) :
    (s.parameters ps).lookup name = (parameter? ps name).map fun p => s.file.resolve p.type := by
  induction ps using List.reverseRecOn with
  | nil => rfl
  | append_singleton ps p ih =>
      have last : s.parameters (ps ++ [p]) = p.name.elim (s.parameters ps) fun n =>
          (s.parameters ps).declare n.text (s.file.resolve p.type) := by
        rw [Surroundings.parameters, List.foldl_append, List.foldl_cons]
        cases p.name <;> rfl
      have found : parameter? (ps ++ [p]) name =
          if p.name.any fun n => n.text == name then some p else parameter? ps name := by
        rw [parameter?, List.reverse_append, List.reverse_singleton, List.singleton_append,
          List.find?_cons]
        cases p.name.any fun n => n.text == name <;> rfl
      rw [last, found]
      cases p.name with
      | none => exact ih
      | some n =>
          simp only [Option.elim_some, Locals.lookup_declare (shows_parameters s ps).some, ih,
            Option.any_some, beq_iff_eq, eq_comm (a := name)]
          split <;> rfl

/-- The local variables of a body: those of the scopes, then the parameters. -/
def Surroundings.localsAt (s : Surroundings) (ps : List Parameter) (scopes : Scopes Ty) : Locals :=
  scopesTypes s.file scopes ++ s.parameters ps

variable {s : Surroundings} {ps : List Parameter}

section Stands

variable {file : FileScope} {contracts : List (Contract α)} {c : Contract α}

/-- What a name is in a body: a local variable, a parameter or a state variable, in this order. -/
theorem variableType_localsAt (scopes : Scopes Ty) (name : String) :
    ((surroundings file contracts c).scope
        ((surroundings file contracts c).localsAt ps scopes)).variableType? name =
      (((scopes.nearest? name).map fun v => localType file v.type v.value).or
        ((parameter? ps name).map fun p => file.resolve p.type)).or
          (((ancestry contracts c).findSome? (·.declared? name)).map fun v =>
            file.resolve v.type) := by
  have parameters : ((surroundings file contracts c).parameters ps).lookup name =
      (parameter? ps name).map fun p => file.resolve p.type := lookup_parameters _ ps name
  rw [← lookup_scope_state, ← parameters, ← lookup_scopesTypes, Scope.variableType?,
    Option.orElse_eq_orElse, Option.orElse_eq_or]
  rfl

/-- The type that a name is given is that of what it stands for, and of nothing else. -/
theorem stands_iff (member : c ∈ contracts) (scopes : Scopes Ty) (name : String) (t : Ty) :
    Stands file contracts c ps scopes name t ↔
      t = ((surroundings file contracts c).scope
        ((surroundings file contracts c).localsAt ps scopes)).nameType name := by
  have state := stateVariable_iff member name
  show _ ↔ t = (Scope.variableType? _ name).getD (givenType c name)
  rw [variableType_localsAt]
  constructor
  · rintro (found | ⟨free, found⟩ | ⟨free, none, declared⟩ | ⟨free, none, undeclared⟩)
    · simp [found]
    · simp [free, found]
    · simp [free, none, (state _).1 declared]
    · have absent := Option.eq_none_iff_forall_ne_some.2 fun v found => undeclared v ((state v).2 found)
      simp [free, none, absent]
  · rintro rfl
    cases near : scopes.nearest? name with
    | some v => exact .nearest near
    | none =>
        cases found : parameter? ps name with
        | some p => exact .parameter near found
        | none =>
            cases seen : (ancestry contracts c).findSome? (·.declared? name) with
            | some v => exact .state near found ((state v).2 seen)
            | none =>
                refine .given near found fun v declared => ?_
                rw [state, seen] at declared
                cases declared

end Stands

theorem nil_localsAt (scopes : Scopes Ty) :
    [] :: s.localsAt ps scopes = s.localsAt ps ([] :: scopes) := rfl

theorem declare_localsAt (ds : List (Variable Ty)) (outer : Scopes Ty) (v : Variable Ty) :
    (s.localsAt ps (ds :: outer)).declare v.name.text (localType s.file v.type v.value) =
      s.localsAt ps ((ds ++ [v]) :: outer) := by
  simp only [Surroundings.localsAt, scopesTypes, List.map_cons, List.cons_append, Locals.declare,
    scopeTypes, List.reverse_append, List.reverse_singleton, List.cons_append, List.nil_append]

-- Typing a file that has its types changes nothing, so each part of it stays as it is when it is
-- typed where it stands. From here on a statement is settled in this sense; then the types that
-- its declarations add are read off the statement itself.

/-- Behind a statement that has its types, what it declares is in the innermost scope. -/
theorem stmt_localsAt (ds : List (Variable Ty)) (outer : Scopes Ty) : (st : Stmt Ty) →
    (s.stmt (s.localsAt ps (ds :: outer)) st).1 = st →
      (s.stmt (s.localsAt ps (ds :: outer)) st).2 = s.localsAt ps ((ds ++ st.declarations) :: outer)
  | .declare span v, settled => by
      have value : s.var (s.localsAt ps (ds :: outer)) v = v := (Stmt.declare.inj settled).2
      simp only [Surroundings.stmt, value, Stmt.declarations, declare_localsAt]
  | .if span c t none, settled => stmt_localsAt ds outer t (Stmt.if.inj settled).2.2.1
  | .if span c t (some f), settled => by
      obtain ⟨-, -, onTrue, onFalse⟩ := Stmt.if.inj settled
      have between := stmt_localsAt ds outer t onTrue
      rw [between, Option.some.injEq] at onFalse
      simp only [Surroundings.stmt, between, stmt_localsAt _ outer f onFalse, Stmt.declarations,
        List.append_assoc]
  | .while span c b, settled => stmt_localsAt ds outer b (Stmt.while.inj settled).2.2
  | .doWhile span b c, settled => stmt_localsAt ds outer b (Stmt.doWhile.inj settled).2.1
  | .for span none c step b, _ | .for span (some i) c step b, _ | .block .., _ | .expression .., _
  | .return .., _ | .emit .., _ | .break _, _ | .continue _, _ | .throw _, _ => by
      simp only [Surroundings.stmt, Stmt.declarations, List.append_nil]

theorem behind_localsAt (ds : List (Variable Ty)) (outer : Scopes Ty) (body : List (Stmt Ty))
    (settled : s.body (s.localsAt ps (ds :: outer)) body = body) :
    behind s (s.localsAt ps (ds :: outer)) body =
      s.localsAt ps ((ds ++ body.flatMap Stmt.declarations) :: outer) := by
  induction body generalizing ds with
  | nil => simp [behind]
  | cons st body ih =>
      obtain ⟨first, others⟩ := List.cons.inj settled
      have next := stmt_localsAt ds outer st first
      rw [next] at others
      rw [behind, List.foldl_cons, next, List.flatMap_cons, ← List.append_assoc]
      exact ih _ others

/-- The parts of a body that has its types have theirs. -/
theorem settled_append {locals : Locals} {before after : List (Stmt Ty)}
    (settled : s.body locals (before ++ after) = before ++ after) :
    s.body locals before = before ∧ s.body (behind s locals before) after = after := by
  have length : ∀ (locals : Locals) (body : List (Stmt Ty)),
      (s.body locals body).length = body.length := by
    intro locals body
    induction body generalizing locals with
    | nil => rfl
    | cons st body ih => exact congrArg (· + 1) (ih _)
  rw [body_append] at settled
  exact List.append_inj settled (length _ _)

/-- What is left out of a statement that has its types has its own, where it stands. -/
theorem settled_hole {st : Stmt Ty} (ds : List (Variable Ty)) (outer : Scopes Ty) : (h : Hole Ty) →
    (s.stmt (s.localsAt ps (ds :: outer)) (h.fill st)).1 = h.fill st →
      (s.stmt (s.localsAt ps (h.scopes (ds :: outer))) st).1 = st
  | .here, settled => settled
  | .block span before h after, settled => by
      obtain ⟨front, rest⟩ := settled_append (Stmt.block.inj settled).2
      have next := behind_localsAt [] (ds :: outer) before front
      rw [nil_localsAt, next] at rest
      exact settled_hole _ _ h (List.cons.inj rest).1
  | .onTrue span c h none, settled => settled_hole ds outer h (Stmt.if.inj settled).2.2.1
  | .onTrue span c h (some f), settled => settled_hole ds outer h (Stmt.if.inj settled).2.2.1
  | .onFalse span c t h, settled => by
      obtain ⟨-, -, onTrue, onFalse⟩ := Stmt.if.inj settled
      rw [stmt_localsAt ds outer t onTrue, Option.some.injEq] at onFalse
      exact settled_hole _ outer h onFalse
  | .while span c h, settled => settled_hole ds outer h (Stmt.while.inj settled).2.2
  | .doWhile span h c, settled => settled_hole ds outer h (Stmt.doWhile.inj settled).2.1
  | .init span h c step b, settled =>
      settled_hole [] (ds :: outer) h (Option.some.inj (Stmt.for.inj settled).2.1)
  | .loop span none c step h, settled =>
      settled_hole [] (ds :: outer) h (Stmt.for.inj settled).2.2.2.2
  | .loop span (some i) c step h, settled => by
      obtain ⟨-, initial, -, -, body⟩ := Stmt.for.inj settled
      have next := stmt_localsAt [] (ds :: outer) i (Option.some.inj initial)
      rw [nil_localsAt, next] at body
      exact settled_hole _ _ h (by simpa using body)

theorem settled_gap {st : Stmt Ty} (g : Gap Ty)
    (settled : s.body ([] :: s.parameters ps) (g.fill st) = g.fill st) :
    (s.stmt (s.localsAt ps g.scopes) st).1 = st := by
  obtain ⟨front, rest⟩ := settled_append settled
  have next := behind_localsAt [] [] g.before front
  rw [show [] :: s.parameters ps = s.localsAt ps [[]] from rfl, next] at rest
  exact settled_hole _ [] g.hole (List.cons.inj rest).1

theorem settled_optional {locals : Locals} {value : Option (Expr Ty)}
    (settled : value.map (s.expr locals) = value) : ∀ e ∈ value.toList, s.expr locals e = e := by
  cases value with
  | none => simp
  | some e => simpa using settled

/-- The heads of a statement that has its types have theirs, each in its scopes. -/
theorem settled_heads {st : Stmt Ty} (scopes : Scopes Ty)
    (settled : (s.stmt (s.localsAt ps scopes) st).1 = st) :
    ∀ site ∈ st.heads scopes, s.expr (s.localsAt ps site.1) site.2 = site.2 := by
  intro site member
  cases st with
  | declare span v =>
      obtain ⟨e, value, rfl⟩ := List.mem_map.1 member
      have same : s.var (s.localsAt ps scopes) v = v := (Stmt.declare.inj settled).2
      exact settled_optional (congrArg Variable.value same) e value
  | expression span e =>
      obtain rfl := List.mem_singleton.1 member
      exact (Stmt.expression.inj settled).2
  | emit span e =>
      obtain rfl := List.mem_singleton.1 member
      exact (Stmt.emit.inj settled).2
  | «if» span c t f =>
      obtain rfl := List.mem_singleton.1 member
      cases f <;> exact (Stmt.if.inj settled).2.1
  | «while» span c b =>
      obtain rfl := List.mem_singleton.1 member
      exact (Stmt.while.inj settled).2.1
  | doWhile span b c =>
      obtain rfl := List.mem_singleton.1 member
      exact (Stmt.doWhile.inj settled).2.2
  | «for» span i c step b =>
      obtain ⟨e, head, rfl⟩ := List.mem_map.1 member
      have inner : c.map (s.expr (s.localsAt ps (i.toList.flatMap Stmt.declarations :: scopes))) = c ∧
          step.map (s.expr (s.localsAt ps (i.toList.flatMap Stmt.declarations :: scopes))) = step := by
        cases i with
        | none =>
            obtain ⟨-, -, condition, stepped, -⟩ := Stmt.for.inj settled
            exact ⟨condition, stepped⟩
        | some i =>
            obtain ⟨-, initial, condition, stepped, -⟩ := Stmt.for.inj settled
            have next := stmt_localsAt [] scopes i (Option.some.inj initial)
            rw [nil_localsAt, next] at condition stepped
            simpa using ⟨condition, stepped⟩
      rcases List.mem_append.1 head with head | head
      · exact settled_optional inner.1 e head
      · exact settled_optional inner.2 e head
  | «return» span value =>
      obtain ⟨e, head, rfl⟩ := List.mem_map.1 member
      exact settled_optional (Stmt.return.inj settled).2 e head
  | block span body | «break» span | «continue» span | throw span => cases member

/-- A name in an expression that has its types has the type that it stands for. -/
theorem note_of_settled {scopes : Scopes Ty} {e : Expr Ty}
    (settled : s.expr (s.localsAt ps scopes) e = e) {i : Info Ty} {name : String}
    (inside : .identifier i name ∈ e.subexpressions) :
    i.note = (s.scope (s.localsAt ps scopes)).nameType name := by
  rw [← settled] at inside
  obtain ⟨d, same⟩ := mem_subexpressions_annotate inside
  have named : (annotate (s.scope (s.localsAt ps scopes)) d).name? = some name := by
    rw [← same]
    rfl
  have type := type_of_name named
  rwa [← same] at type

end Names

section Scoping

/-- Two places with as many nodes and members before the body have the same body. -/
theorem body_of_fill {p q : BodyPlace α} {body body' : List (Stmt α)}
    (same : p.fill body = q.fill body') (nodes : p.before.length = q.before.length)
    (members : p.first.length = q.first.length) : body = body' := by
  have contract := (List.append_inj (congrArg SourceUnit.nodes same) nodes).2
  have whole := Node.contract.inj (List.cons.inj contract).1
  have member := (List.append_inj (congrArg Contract.members whole) members).2
  have header := (List.cons.inj member).1
  generalize p.header = h at header
  generalize q.header = k at header
  cases h with
  | function f span =>
      cases k with
      | function g span' =>
          have bodies := congrArg FunctionDef.body (Member.function.inj header)
          exact congrArg Block.body (Option.some.inj bodies)
      | modifier m span' => cases header
  | modifier m span =>
      cases k with
      | function g span' => cases header
      | modifier k span' =>
          exact congrArg (fun m : ModifierDef α => m.body.body) (Member.modifier.inj header)

/-- A body of a file that has its types has its own. -/
theorem settled_of_annotated {p : BodyPlace Ty} {body : List (Stmt Ty)}
    (annotated : (p.fill body).annotate = p.fill body) :
    (bodySurroundings p).body (bodyLocals p) body = body := by
  rw [annotate_fill] at annotated
  exact body_of_fill annotated (List.length_map _) (List.length_map _)

/-- A name in a body has the type of what it stands for there. -/
theorem stands_of_annotated {p : BodyPlace Ty} {g : Gap Ty} {st : Stmt Ty}
    (annotated : (p.fill (g.fill st)).annotate = p.fill (g.fill st)) {site : Scopes Ty × Expr Ty}
    (head : site ∈ st.heads g.scopes) {i : Info Ty} {name : String}
    (inside : .identifier i name ∈ site.2.subexpressions) (t : Ty) :
    Stands (FileScope.of (p.fill (g.fill st))) (p.fill (g.fill st)).contracts (p.whole (g.fill st))
      p.header.parameters site.1 name t ↔ t = i.note := by
  have member : p.whole (g.fill st) ∈ (p.fill (g.fill st)).contracts :=
    p.contracts_fill (g.fill st) ▸ List.mem_append.2 (.inr List.mem_cons_self)
  have settled := settled_gap g (settled_of_annotated annotated)
  have note := note_of_settled (settled_heads g.scopes settled site head) inside
  rw [stands_iff member, surroundings_fill, note]

/-- Declarations do not leave their scope. Every body and every statement of a file stands in a
place. What is around a body, and what is around a block or a `for` statement in a body, has the
same types whatever is put there. And every expression of a body stands in one of its statements,
where a name has the type of the nearest variable declared before it in the scopes around it, else
of the parameter or the return value, else of the state variable, else the one that the language
gives to it. -/
theorem types_scoped (u : SourceUnit Unit) :
    ((∀ b, u.Has (.block b) → ∃ p : BodyPlace Unit, p.fill b.body = u) ∧
      ∀ st, u.Has (.stmt st) → ∃ (p : BodyPlace Unit) (g : Gap Unit), p.fill (g.fill st) = u) ∧
    (∀ p : BodyPlace Unit, ∃ p' : BodyPlace Ty,
      p'.mapRoots Expr.forget = p.mapRoots Expr.forget ∧
        ∀ body, ∃ body', (p.fill body).annotate = p'.fill body') ∧
    (∀ (p : BodyPlace Unit) (g : Gap Unit), ∃ (p' : BodyPlace Ty) (g' : Gap Ty),
      p'.mapRoots Expr.forget = p.mapRoots Expr.forget ∧
        g'.mapRoots Expr.forget = g.mapRoots Expr.forget ∧
        ∀ st : Stmt Unit, st.IsScope → ∃ st', (p.fill (g.fill st)).annotate = p'.fill (g'.fill st')) ∧
    ∀ (p : BodyPlace Ty) (body : List (Stmt Ty)), p.fill body = u.annotate →
      (∀ e ∈ Stmt.expressionsAll body, ∃ (g : Gap Ty) (st : Stmt Ty), g.fill st = body ∧
        ∃ site ∈ st.heads g.scopes, e ∈ site.2.subexpressions) ∧
      ∀ (g : Gap Ty) (st : Stmt Ty), g.fill st = body → ∀ site ∈ st.heads g.scopes,
        ∀ i name, .identifier i name ∈ site.2.subexpressions → ∀ t,
          Stands (FileScope.of u.annotate) u.annotate.contracts (p.whole body) p.header.parameters
            site.1 name t ↔ t = i.note := by
  refine ⟨⟨fun b => SourceUnit.Has.exists_place, fun st => SourceUnit.Has.exists_gap⟩, ?_, ?_, ?_⟩
  · intro p
    exact ⟨typedPlace p, mapRoots_forget_place p, fun body => ⟨_, annotate_fill p body⟩⟩
  · intro p g
    refine ⟨typedPlace p, typedGap p g, mapRoots_forget_place p, mapRoots_forget_gap _ _ g,
      fun st scope => ?_⟩
    have typed := body_fill (bodySurroundings p) (bodyLocals p)
      (fun locals => stmt_isScope _ locals scope) g
    exact ⟨_, by rw [annotate_fill, typed, typedGap]⟩
  · intro p body filled
    refine ⟨fun e => Stmt.exists_gap, ?_⟩
    rintro g st rfl site head i name inside
    have twice := annotate_annotate u
    rw [← filled] at twice ⊢
    exact stands_of_annotated twice head inside

/-- The place of the body in `contract B { uint64 y; } contract C is B { uint8 x; function
f(uint16 x) { } }`, without the places of its parts. -/
def shadowed : BodyPlace Unit :=
  let unsigned (width : Nat) : TypeName := .elementary (.point 0) (.integer (.unsigned width))
  let x : Ident := ⟨"x", .point 0⟩
  let b : Contract Unit :=
    ⟨0, .contract, ⟨"B", .point 0⟩, [], [.state ⟨unsigned 64, ⟨"y", .point 0⟩, none, .point 0⟩],
      .point 0⟩
  let f : FunctionDef Unit :=
    { id := 0, name := .named ⟨"f", .point 0⟩, params := [⟨unsigned 16, some x, .point 0⟩],
      returns := [], attributes := [], modifiers := [], body := none, span := .point 0 }
  { before := [.contract b]
    contract := ⟨0, .contract, ⟨"C", .point 0⟩, [⟨⟨"B", .point 0⟩, none, .point 0⟩], [], .point 0⟩
    first := [.state ⟨unsigned 8, x, none, .point 0⟩]
    header := .function f (.point 0)
    rest := []
    after := []
    span := .point 0 }

/-- The statement that is nothing but a name. -/
def reads (name : String) : Stmt Unit := .expression (.point 0) (.identifier ⟨.point 0, ()⟩ name)

/-- The block `{ uint32 x; x; }`. -/
def shadowing : Stmt Unit :=
  .block (.point 0)
    [.declare (.point 0)
      ⟨.elementary (.point 0) (.integer (.unsigned 32)), ⟨"x", .point 0⟩, none, .point 0⟩, reads "x"]

/-- The statements `{ uint32 x; x; } x; y;`. -/
def shadowedBody : List (Stmt Unit) := [shadowing, reads "x", reads "y"]

/-- In the block the name stands for the block's variable, and behind it for the parameter. A name
that the body does not declare stands for the variable of the base. -/
theorem types_scoped_shadowing :
    (shadowed.fill shadowedBody).Has (.stmt shadowing) ∧ shadowing.IsScope ∧
      ∃ (p : BodyPlace Ty) (body : List (Stmt Ty)) (i j k : Info Ty),
        p.fill body = (shadowed.fill shadowedBody).annotate ∧
          Stmt.rootsAll body = [.identifier i "x", .identifier j "x", .identifier k "y"] ∧
          i.note = .integer (.unsigned 32) ∧ j.note = .integer (.unsigned 16) ∧
          k.note = .integer (.unsigned 64) := by
  have names := ((types_scoped (shadowed.fill shadowedBody)).2.2.2 (typedPlace shadowed)
    ((bodySurroundings shadowed).body (bodyLocals shadowed) shadowedBody) rfl).2
  refine ⟨?_, trivial, typedPlace shadowed, _, _, _, _, rfl, rfl, ?_, ?_, ?_⟩
  · refine ⟨.contract (shadowed.whole shadowedBody), by simp [shadowed, BodyPlace.fill], ?_⟩
    refine .head (b := .member (shadowed.header.member shadowedBody)) ?_ ?_
    · simp [Construct.parts, Node.parts, BodyPlace.whole]
    refine .head (b := .block ⟨shadowedBody, .point 0⟩) ?_ (.single ?_)
    · simp [Construct.parts, Member.parts, FunctionDef.parts, shadowed, Header.member]
    · simp [Construct.parts, shadowedBody]
  · have inner := names ⟨[], .block _ [_] .here [], [_, _]⟩ (.expression _ _) rfl _
      (List.mem_singleton_self _) _ "x" (Expr.self_mem_subexpressions _)
    exact ((inner _).1 (.nearest rfl)).symm
  · have outer := names ⟨[_], .here, [_]⟩ (.expression _ _) rfl _ (List.mem_singleton_self _) _ "x"
      (Expr.self_mem_subexpressions _)
    exact ((outer _).1 (.parameter rfl rfl)).symm
  · have state := names ⟨[_, _], .here, []⟩ (.expression _ _) rfl _ (List.mem_singleton_self _) _ "y"
      (Expr.self_mem_subexpressions _)
    have meets : Meets (shadowed.fill shadowedBody).annotate.contracts []
        [(typedPlace shadowed).whole ((bodySurroundings shadowed).body (bodyLocals shadowed) shadowedBody)]
        [_, _] := .first List.not_mem_nil (.first (by decide) .done)
    exact ((state _).1 (.state rfl rfl ⟨[_], _, [], meets, by simp; rfl, rfl⟩)).symm

end Scoping

end Typing
end SafeSubset
