import SafeSubset.Proofs.Syntax.Constructs
import SafeSubset.Proofs.Syntax.Map

/-! Places in a file where a statement or a body can stand. A place is the file without what
stands there, so different things can be put into one place. From a place one can tell which
scopes are around it, and what has been declared in each of them before it. -/
namespace SafeSubset

variable {α β : Type}

/-- A statement in which one statement is left out. -/
inductive Hole (α : Type) where
  | here
  | block (span : Span) (before : List (Stmt α)) (inner : Hole α) (after : List (Stmt α))
  | onTrue (span : Span) (condition : Expr α) (inner : Hole α) (onFalse : Option (Stmt α))
  | onFalse (span : Span) (condition : Expr α) (onTrue : Stmt α) (inner : Hole α)
  | «while» (span : Span) (condition : Expr α) (inner : Hole α)
  | doWhile (span : Span) (inner : Hole α) (condition : Expr α)
  | init (span : Span) (inner : Hole α) (condition step : Option (Expr α)) (body : Stmt α)
  | loop (span : Span) (init : Option (Stmt α)) (condition step : Option (Expr α)) (inner : Hole α)

/-- Some statements of which one, or one in it, is left out. -/
structure Gap (α : Type) where
  before : List (Stmt α)
  hole : Hole α
  after : List (Stmt α)

/-- A function or a modifier of which only the body is left out. The span is the body's. -/
inductive Header (α : Type) where
  | function (f : FunctionDef α) (span : Span)
  | modifier (m : ModifierDef α) (span : Span)

/-- A file in which one body is left out. The members of its contract are the first ones, the
one with the body, and the rest. -/
structure BodyPlace (α : Type) where
  before : List (Node α)
  contract : Contract α
  first : List (Member α)
  header : Header α
  rest : List (Member α)
  after : List (Node α)
  span : Span

section Fill

def Hole.fill (st : Stmt α) : Hole α → Stmt α
  | here => st
  | block span before inner after => .block span (before ++ inner.fill st :: after)
  | onTrue span c inner f => .if span c (inner.fill st) f
  | onFalse span c t inner => .if span c t (some (inner.fill st))
  | .while span c inner => .while span c (inner.fill st)
  | doWhile span inner c => .doWhile span (inner.fill st) c
  | init span inner c step b => .for span (some (inner.fill st)) c step b
  | loop span i c step inner => .for span i c step (inner.fill st)

def Gap.fill (g : Gap α) (st : Stmt α) : List (Stmt α) := g.before ++ g.hole.fill st :: g.after

def Header.member (h : Header α) (body : List (Stmt α)) : Member α :=
  match h with
  | function f span => .function { f with body := some ⟨body, span⟩ }
  | modifier m span => .modifier { m with body := ⟨body, span⟩ }

/-- The parameters and the return values. -/
def Header.parameters : Header α → List Parameter
  | function f _ => f.params ++ f.returns
  | modifier m _ => m.params

/-- The contract with a body in the place. -/
def BodyPlace.whole (p : BodyPlace α) (body : List (Stmt α)) : Contract α :=
  { p.contract with members := p.first ++ p.header.member body :: p.rest }

def BodyPlace.fill (p : BodyPlace α) (body : List (Stmt α)) : SourceUnit α :=
  ⟨p.before ++ .contract (p.whole body) :: p.after, p.span⟩

theorem BodyPlace.contracts_fill (p : BodyPlace α) (body : List (Stmt α)) : (p.fill body).contracts =
    (SourceUnit.mk p.before p.span).contracts ++
      p.whole body :: (SourceUnit.mk p.after p.span).contracts := by
  simp only [SourceUnit.contracts, fill, List.filterMap_append, List.filterMap_cons]

end Fill

section Map

variable (f : Expr α → Expr β)

def Hole.mapRoots : Hole α → Hole β
  | here => .here
  | block span before inner after =>
      .block span (Stmt.mapRootsAll f before) inner.mapRoots (Stmt.mapRootsAll f after)
  | onTrue span c inner e => .onTrue span (f c) inner.mapRoots (e.map (Stmt.mapRoots f))
  | onFalse span c t inner => .onFalse span (f c) (t.mapRoots f) inner.mapRoots
  | .while span c inner => .while span (f c) inner.mapRoots
  | doWhile span inner c => .doWhile span inner.mapRoots (f c)
  | init span inner c step b => .init span inner.mapRoots (c.map f) (step.map f) (b.mapRoots f)
  | loop span i c step inner =>
      .loop span (i.map (Stmt.mapRoots f)) (c.map f) (step.map f) inner.mapRoots

def Gap.mapRoots (g : Gap α) : Gap β :=
  ⟨Stmt.mapRootsAll f g.before, g.hole.mapRoots f, Stmt.mapRootsAll f g.after⟩

def Header.mapRoots : Header α → Header β
  | function d span => .function (d.mapRoots f) span
  | modifier m span => .modifier { m with body := m.body.mapRoots f } span

def BodyPlace.mapRoots (p : BodyPlace α) : BodyPlace β where
  before := p.before.map (Node.mapRoots f)
  contract := p.contract.mapRoots f
  first := p.first.map (Member.mapRoots f)
  header := p.header.mapRoots f
  rest := p.rest.map (Member.mapRoots f)
  after := p.after.map (Node.mapRoots f)
  span := p.span

end Map

section Scopes

/-- The blocks and `for` statements around a place, the innermost first, each with the variables
that are declared in it before the place, in the order of their declarations. -/
abbrev Scopes (α : Type) := List (List (Variable α))

/-- Variables are declared in the innermost scope. -/
def Scopes.add (vs : List (Variable α)) : Scopes α → Scopes α
  | [] => []
  | ds :: outer => (ds ++ vs) :: outer

/-- The variable that a name stands for: the last one of that name in the innermost scope that
has one. -/
def Scopes.nearest? (scopes : Scopes α) (name : String) : Option (Variable α) :=
  scopes.findSome? fun ds => ds.reverse.find? fun v => v.name.text == name

/-- The variables that a statement declares in the scope in which it stands. -/
def Stmt.declarations : Stmt α → List (Variable α)
  | .declare _ v => [v]
  | .if _ _ t none => t.declarations
  | .if _ _ t (some f) => t.declarations ++ f.declarations
  | .while _ _ b | .doWhile _ b _ => b.declarations
  | .block .. | .expression .. | .for .. | .return .. | .emit .. | .break _ | .continue _
  | .throw _ => []

/-- The scopes around what is left out of a statement that stands in some scopes. -/
def Hole.scopes (outer : Scopes α) : Hole α → Scopes α
  | here => outer
  | block _ before inner _ => inner.scopes (before.flatMap Stmt.declarations :: outer)
  | onTrue _ _ inner _ => inner.scopes outer
  | onFalse _ _ t inner => inner.scopes (outer.add t.declarations)
  | .while _ _ inner => inner.scopes outer
  | doWhile _ inner _ => inner.scopes outer
  | init _ inner _ _ _ => inner.scopes ([] :: outer)
  | loop _ i _ _ inner => inner.scopes (i.toList.flatMap Stmt.declarations :: outer)

/-- The scopes around what is left out of a body, whose own scope is the outermost one. -/
def Gap.scopes (g : Gap α) : Scopes α := g.hole.scopes [g.before.flatMap Stmt.declarations]

/-- The roots that stand in a statement and in no statement inside it, each with the scopes
around it. The condition and the step of a `for` statement stand in its scope, behind the
initial statement. -/
def Stmt.heads (scopes : Scopes α) : Stmt α → List (Scopes α × Expr α)
  | .declare _ v => v.value.toList.map fun e => (scopes, e)
  | .expression _ e | .emit _ e => [(scopes, e)]
  | .if _ c _ _ | .while _ c _ | .doWhile _ _ c => [(scopes, c)]
  | .for _ i c step _ =>
      (c.toList ++ step.toList).map fun e => (i.toList.flatMap Stmt.declarations :: scopes, e)
  | .return _ value => value.toList.map fun e => (scopes, e)
  | .block .. | .break _ | .continue _ | .throw _ => []

end Scopes

section Statements

variable {s : Stmt Unit}

/-- A node of a file's tree is what some place becomes when the statement is put into it. -/
def Construct.Fits (s : Stmt Unit) : Construct → Prop
  | .stmt t => ∃ h : Hole Unit, h.fill s = t
  | .block b => ∃ g : Gap Unit, g.fill s = b.body
  | .member m => ∃ (h : Header Unit) (g : Gap Unit), h.member (g.fill s) = m
  | .node n =>
      ∃ (c : Contract Unit) (first rest : List (Member Unit)) (h : Header Unit) (g : Gap Unit),
        n = .contract { c with members := first ++ h.member (g.fill s) :: rest }
  | _ => False

/-- The body of a member can be left out. -/
theorem Member.exists_header {m : Member Unit} {b : Block Unit} (part : .block b ∈ m.parts) :
    ∃ h : Header Unit, h.member b.body = m := by
  cases m with
  | function f =>
      have body : f.body = some b := by simpa [parts, FunctionDef.parts] using part
      exact ⟨.function f b.span, by simp only [Header.member, ← body]⟩
  | modifier m =>
      obtain rfl : b = m.body := by simpa [parts] using part
      exact ⟨.modifier m m.body.span, rfl⟩
  | state v => simp [parts, Variable.parts] at part
  | directive u | event e | struct d | enum e => simp [parts] at part

theorem Construct.fits_body {body : List (Stmt Unit)} {t : Stmt Unit} (member : t ∈ body)
    (inner : (Construct.stmt t).Fits s) : ∃ g : Gap Unit, g.fill s = body := by
  obtain ⟨h, filled⟩ := inner
  obtain ⟨before, after, rfl⟩ := List.append_of_mem member
  exact ⟨⟨before, h, after⟩, by rw [Gap.fill, filled]⟩

/-- In an expression there are names, written types and expressions. -/
theorem Expr.kind_of_part {e : Expr Unit} {y : Construct} (part : y ∈ e.parts) :
    (∃ i, y = .ident i) ∨ (∃ t, y = .typeName t) ∨ ∃ d, y = .expr d := by
  cases e with
  | call i callee args names =>
      rcases List.mem_cons.1 part with rfl | part
      · exact .inr (.inr ⟨callee, rfl⟩)
      · rcases Construct.mem_argumentParts part with ⟨i, rfl⟩ | ⟨d, -, rfl⟩
        · exact .inl ⟨i, rfl⟩
        · exact .inr (.inr ⟨d, rfl⟩)
  | index i base k => cases k <;> simp [parts] at part <;> grind
  | _ => simp [parts] at part <;> grind

/-- A statement that stands in a part of a statement stands in the statement. -/
theorem Stmt.fits_of_part {t : Stmt Unit} {y : Construct} (part : y ∈ t.parts) (inner : y.Fits s) :
    (Construct.stmt t).Fits s := by
  cases t with
  | block span body =>
      obtain ⟨t, member, rfl⟩ := List.mem_map.1 part
      obtain ⟨⟨before, h, after⟩, rfl⟩ := Construct.fits_body member inner
      exact ⟨.block span before h after, rfl⟩
  | «if» span c t f =>
      simp only [parts, List.mem_cons, List.mem_map, Option.mem_toList] at part
      rcases part with rfl | rfl | ⟨e, rfl, rfl⟩
      · exact inner.elim
      · obtain ⟨h, rfl⟩ := inner
        exact ⟨.onTrue span c h f, rfl⟩
      · obtain ⟨h, rfl⟩ := inner
        exact ⟨.onFalse span c t h, rfl⟩
  | «while» span c b =>
      simp only [parts, List.mem_cons, List.not_mem_nil, or_false] at part
      rcases part with rfl | rfl
      · exact inner.elim
      · obtain ⟨h, rfl⟩ := inner
        exact ⟨.while span c h, rfl⟩
  | doWhile span b c =>
      simp only [parts, List.mem_cons, List.not_mem_nil, or_false] at part
      rcases part with rfl | rfl
      · obtain ⟨h, rfl⟩ := inner
        exact ⟨.doWhile span h c, rfl⟩
      · exact inner.elim
  | «for» span i c step b =>
      simp only [parts, List.mem_append, List.mem_map, Option.mem_toList, List.mem_singleton] at part
      rcases part with (⟨t, rfl, rfl⟩ | ⟨e, -, rfl⟩ | ⟨e, -, rfl⟩) | rfl
      · obtain ⟨h, rfl⟩ := inner
        exact ⟨.init span h c step b, rfl⟩
      · exact inner.elim
      · exact inner.elim
      · obtain ⟨h, rfl⟩ := inner
        exact ⟨.loop span i c step h, rfl⟩
  | _ => simp [parts] at part <;> grind [Construct.Fits]

/-- A statement that stands in a part of a member stands in the member's body. -/
theorem Member.fits_of_part {m : Member Unit} {y : Construct} (part : y ∈ m.parts)
    (inner : y.Fits s) : (Construct.member m).Fits s := by
  cases y with
  | block b =>
      obtain ⟨h, rfl⟩ := exists_header part
      obtain ⟨g, filled⟩ := inner
      exact ⟨h, g, by rw [filled]⟩
  | stmt t | member k | node n => cases m <;> simp [parts, FunctionDef.parts, Variable.parts] at part
  | _ => exact inner.elim

/-- What fits into a part fits into the whole. -/
theorem Construct.fits_of_part {x y : Construct} (part : y ∈ x.parts) (inner : y.Fits s) :
    x.Fits s := by
  cases x with
  | stmt t => exact Stmt.fits_of_part part inner
  | block b =>
      obtain ⟨t, member, rfl⟩ := List.mem_map.1 part
      exact fits_body member inner
  | member m => exact Member.fits_of_part part inner
  | node n =>
      cases n with
      | contract c =>
          simp only [parts, Node.parts, List.mem_cons, List.mem_append, List.mem_map] at part
          rcases part with rfl | ⟨b, -, rfl⟩ | ⟨m, member, rfl⟩
          · exact inner.elim
          · exact inner.elim
          · obtain ⟨h, g, rfl⟩ := inner
            obtain ⟨first, rest, split⟩ := List.append_of_mem member
            exact ⟨c, first, rest, h, g, by rw [← split]⟩
      | pragma span | inclusion span => cases part
  | expr e => rcases Expr.kind_of_part part with ⟨i, rfl⟩ | ⟨t, rfl⟩ | ⟨d, rfl⟩ <;> exact inner.elim
  | typeName t => cases t <;> simp [parts, TypeName.parts] at part <;> grind [Fits]
  | ident i => cases part
  | localVariable v => simp [parts, Variable.parts] at part; grind [Fits]
  | parameter v | field v | invocation v | base v => simp [parts] at part; grind [Fits]

theorem Construct.Has.fits {x y : Construct} (stands : x.Has y) (inner : y.Fits s) : x.Fits s := by
  induction stands using Relation.ReflTransGen.head_induction_on with
  | refl => exact inner
  | head part _ ih => exact Construct.fits_of_part part ih

/-- Every statement of a file stands in a place. -/
theorem SourceUnit.Has.exists_gap {u : SourceUnit Unit} (stands : u.Has (.stmt s)) :
    ∃ (p : BodyPlace Unit) (g : Gap Unit), p.fill (g.fill s) = u := by
  obtain ⟨n, member, stands⟩ := stands
  obtain ⟨c, first, rest, h, g, rfl⟩ := stands.fits ⟨.here, rfl⟩
  obtain ⟨before, after, split⟩ := List.append_of_mem member
  exact ⟨⟨before, c, first, h, rest, after, u.span⟩, g, by
    rw [BodyPlace.fill, BodyPlace.whole, ← split]⟩

/-- Only members have bodies, only nodes have members, and nodes stand in nothing. -/
theorem Construct.owner {x y : Construct} (part : y ∈ x.parts) :
    (∀ b, y = .block b → ∃ m, x = .member m) ∧ (∀ m, y = .member m → ∃ n, x = .node n) ∧
      ∀ n, y ≠ .node n := by
  cases x with
  | expr e =>
      rcases Expr.kind_of_part part with ⟨i, rfl⟩ | ⟨t, rfl⟩ | ⟨d, rfl⟩ <;>
        exact ⟨nofun, nofun, nofun⟩
  | typeName t => cases t <;> simp [parts, TypeName.parts] at part <;> grind
  | stmt t => cases t <;> simp [parts, Stmt.parts] at part <;> grind
  | member m =>
      cases m <;> simp [parts, Member.parts, FunctionDef.parts, Variable.parts] at part <;> grind
  | node n => cases n <;> simp [parts, Node.parts] at part; grind
  | ident i => cases part
  | _ => simp [parts, Variable.parts] at part; grind

/-- Every body in a file stands in a place. -/
theorem SourceUnit.Has.exists_place {u : SourceUnit Unit} {b : Block Unit}
    (stands : u.Has (.block b)) : ∃ p : BodyPlace Unit, p.fill b.body = u := by
  obtain ⟨n, member, stands⟩ := stands
  obtain ⟨x, stands, part⟩ := (Relation.ReflTransGen.cases_tail stands).resolve_left nofun
  obtain ⟨m, rfl⟩ := (Construct.owner part).1 b rfl
  obtain ⟨h, rfl⟩ := Member.exists_header part
  obtain ⟨y, stands, inside⟩ := (Relation.ReflTransGen.cases_tail stands).resolve_left nofun
  obtain ⟨k, rfl⟩ := (Construct.owner inside).2.1 _ rfl
  obtain same | ⟨z, -, never⟩ := Relation.ReflTransGen.cases_tail stands
  · obtain rfl : k = n := by cases same; rfl
    cases k with
    | contract c =>
        have inside : h.member b.body ∈ c.members := by
          simpa [Construct.parts, Node.parts] using inside
        obtain ⟨first, rest, split⟩ := List.append_of_mem inside
        obtain ⟨before, after, file⟩ := List.append_of_mem member
        exact ⟨⟨before, c, first, h, rest, after, u.span⟩, by
          rw [BodyPlace.fill, BodyPlace.whole, ← split, ← file]⟩
    | pragma span | inclusion span => cases inside
  · exact absurd rfl ((Construct.owner never).2.2 k)

end Statements

section Heads

variable {r : Expr α}

mutual
/-- Every root of a statement stands in a statement in it, and in none inside that. -/
theorem Stmt.exists_hole : (s : Stmt α) → r ∈ s.roots → ∃ (h : Hole α) (t : Stmt α), h.fill t = s ∧
    ∀ outer, ∃ scopes, (scopes, r) ∈ t.heads (h.scopes outer)
  | .block span body, root => by
      obtain ⟨before, h, t, after, rfl, heads⟩ := Stmt.exists_holeAll body root
      exact ⟨.block span before h after, t, rfl, fun outer => heads _⟩
  | .declare span v, root =>
      ⟨.here, .declare span v, rfl, fun outer => ⟨outer, List.mem_map_of_mem root⟩⟩
  | .expression span e, root | .emit span e, root => by
      obtain rfl := List.mem_singleton.1 root
      exact ⟨.here, _, rfl, fun outer => ⟨outer, List.mem_singleton_self _⟩⟩
  | .if span c t none, root => by
      rcases List.mem_cons.1 root with rfl | root
      · exact ⟨.here, _, rfl, fun outer => ⟨outer, List.mem_singleton_self _⟩⟩
      · obtain ⟨h, t, rfl, heads⟩ := t.exists_hole root
        exact ⟨.onTrue span c h none, t, rfl, heads⟩
  | .if span c t (some f), root => by
      rcases List.mem_cons.1 root with rfl | root
      · exact ⟨.here, _, rfl, fun outer => ⟨outer, List.mem_singleton_self _⟩⟩
      rcases List.mem_append.1 root with root | root
      · obtain ⟨h, t, rfl, heads⟩ := t.exists_hole root
        exact ⟨.onTrue span c h (some f), t, rfl, heads⟩
      · obtain ⟨h, f, rfl, heads⟩ := f.exists_hole root
        exact ⟨.onFalse span c t h, f, rfl, fun outer => heads _⟩
  | .while span c b, root => by
      rcases List.mem_cons.1 root with rfl | root
      · exact ⟨.here, _, rfl, fun outer => ⟨outer, List.mem_singleton_self _⟩⟩
      · obtain ⟨h, b, rfl, heads⟩ := b.exists_hole root
        exact ⟨.while span c h, b, rfl, heads⟩
  | .doWhile span b c, root => by
      rcases List.mem_append.1 root with root | root
      · obtain ⟨h, b, rfl, heads⟩ := b.exists_hole root
        exact ⟨.doWhile span h c, b, rfl, heads⟩
      · obtain rfl := List.mem_singleton.1 root
        exact ⟨.here, _, rfl, fun outer => ⟨outer, List.mem_singleton_self _⟩⟩
  | .for span none c step b, root => by
      rcases List.mem_append.1 root with root | root
      · exact ⟨.here, _, rfl, fun outer => ⟨_, List.mem_map_of_mem root⟩⟩
      · obtain ⟨h, b, rfl, heads⟩ := b.exists_hole root
        exact ⟨.loop span none c step h, b, rfl, fun outer => heads _⟩
  | .for span (some i) c step b, root => by
      rw [Stmt.roots, List.append_assoc, List.append_assoc, ← List.append_assoc c.toList] at root
      rcases List.mem_append.1 root with root | root
      · obtain ⟨h, i, rfl, heads⟩ := i.exists_hole root
        exact ⟨.init span h c step b, i, rfl, fun outer => heads _⟩
      rcases List.mem_append.1 root with root | root
      · exact ⟨.here, _, rfl, fun outer => ⟨_, List.mem_map_of_mem root⟩⟩
      · obtain ⟨h, b, rfl, heads⟩ := b.exists_hole root
        exact ⟨.loop span (some i) c step h, b, rfl, fun outer => heads _⟩
  | .return span value, root =>
      ⟨.here, .return span value, rfl, fun outer => ⟨outer, List.mem_map_of_mem root⟩⟩
  | .break _, root | .continue _, root | .throw _, root => by cases root

theorem Stmt.exists_holeAll : (ss : List (Stmt α)) → r ∈ Stmt.rootsAll ss →
    ∃ (before : List (Stmt α)) (h : Hole α) (t : Stmt α) (after : List (Stmt α)),
      before ++ h.fill t :: after = ss ∧ ∀ outer, ∃ scopes, (scopes, r) ∈ t.heads (h.scopes outer)
  | [], root => by cases root
  | s :: ss, root => by
      rcases List.mem_append.1 root with root | root
      · obtain ⟨h, t, rfl, heads⟩ := s.exists_hole root
        exact ⟨[], h, t, ss, rfl, heads⟩
      · obtain ⟨before, h, t, after, rfl, heads⟩ := Stmt.exists_holeAll ss root
        exact ⟨s :: before, h, t, after, rfl, heads⟩
end

/-- Every expression of a body stands somewhere in it. -/
theorem Stmt.exists_gap {body : List (Stmt α)} {e : Expr α} (member : e ∈ Stmt.expressionsAll body) :
    ∃ (g : Gap α) (t : Stmt α), g.fill t = body ∧
      ∃ site ∈ t.heads g.scopes, e ∈ site.2.subexpressions := by
  rw [Stmt.expressionsAll_eq] at member
  obtain ⟨r, root, inside⟩ := List.mem_flatMap.1 member
  obtain ⟨before, h, t, after, filled, heads⟩ := Stmt.exists_holeAll body root
  obtain ⟨scopes, head⟩ := heads [before.flatMap Stmt.declarations]
  exact ⟨⟨before, h, after⟩, t, filled, (scopes, r), head, inside⟩

end Heads

section Expressions

theorem Stmt.expressionsAll_append (ss ts : List (Stmt α)) :
    Stmt.expressionsAll (ss ++ ts) = Stmt.expressionsAll ss ++ Stmt.expressionsAll ts := by
  induction ss with
  | nil => rfl
  | cons s ss ih => rw [List.cons_append, expressionsAll, ih, expressionsAll, List.append_assoc]

/-- The expressions of a statement are those of the one in it with what is around them. -/
theorem Hole.expressions_fill : (h : Hole α) → ∃ before after, ∀ st : Stmt α,
    (h.fill st).expressions = before ++ st.expressions ++ after
  | .here => ⟨[], [], fun st => by simp [fill]⟩
  | .block _ ss h ts => by
      obtain ⟨before, after, inner⟩ := h.expressions_fill
      exact ⟨Stmt.expressionsAll ss ++ before, after ++ Stmt.expressionsAll ts, fun st => by
        simp [fill, Stmt.expressions, Stmt.expressionsAll_append, Stmt.expressionsAll, inner]⟩
  | .onTrue _ c h none => by
      obtain ⟨before, after, inner⟩ := h.expressions_fill
      exact ⟨c.subexpressions ++ before, after, fun st => by simp [fill, Stmt.expressions, inner]⟩
  | .onTrue _ c h (some f) => by
      obtain ⟨before, after, inner⟩ := h.expressions_fill
      exact ⟨c.subexpressions ++ before, after ++ f.expressions, fun st => by
        simp [fill, Stmt.expressions, inner]⟩
  | .onFalse _ c t h => by
      obtain ⟨before, after, inner⟩ := h.expressions_fill
      exact ⟨c.subexpressions ++ t.expressions ++ before, after, fun st => by
        simp [fill, Stmt.expressions, inner]⟩
  | .while _ c h => by
      obtain ⟨before, after, inner⟩ := h.expressions_fill
      exact ⟨c.subexpressions ++ before, after, fun st => by simp [fill, Stmt.expressions, inner]⟩
  | .doWhile _ h c => by
      obtain ⟨before, after, inner⟩ := h.expressions_fill
      exact ⟨before, after ++ c.subexpressions, fun st => by simp [fill, Stmt.expressions, inner]⟩
  | .init _ h c step b => by
      obtain ⟨before, after, inner⟩ := h.expressions_fill
      exact ⟨before, after ++ optionalExpressions c ++ optionalExpressions step ++ b.expressions,
        fun st => by simp [fill, Stmt.expressions, inner]⟩
  | .loop _ none c step h => by
      obtain ⟨before, after, inner⟩ := h.expressions_fill
      exact ⟨optionalExpressions c ++ optionalExpressions step ++ before, after, fun st => by
        simp [fill, Stmt.expressions, inner]⟩
  | .loop _ (some i) c step h => by
      obtain ⟨before, after, inner⟩ := h.expressions_fill
      exact ⟨i.expressions ++ optionalExpressions c ++ optionalExpressions step ++ before, after,
        fun st => by simp [fill, Stmt.expressions, inner]⟩

theorem Gap.expressions_fill (g : Gap α) : ∃ before after, ∀ st : Stmt α,
    Stmt.expressionsAll (g.fill st) = before ++ st.expressions ++ after := by
  obtain ⟨before, after, inner⟩ := g.hole.expressions_fill
  exact ⟨Stmt.expressionsAll g.before ++ before, after ++ Stmt.expressionsAll g.after, fun st => by
    simp [fill, Stmt.expressionsAll_append, Stmt.expressionsAll, inner]⟩

/-- So are the expressions of a contract with the body in it. -/
theorem BodyPlace.expressions_whole (p : BodyPlace α) (g : Gap α) : ∃ before after, ∀ st : Stmt α,
    (p.whole (g.fill st)).expressions = before ++ st.expressions ++ after := by
  obtain ⟨before, after, inner⟩ := g.expressions_fill
  obtain ⟨head, member⟩ : ∃ head, ∀ body, (p.header.member body).expressions =
      head ++ Stmt.expressionsAll body := by
    cases p.header with
    | function f span => exact ⟨f.modifiers.flatMap Invocation.expressions, fun body => rfl⟩
    | modifier m span => exact ⟨[], fun body => rfl⟩
  refine ⟨p.contract.bases.flatMap Base.expressions ++ p.first.flatMap Member.expressions ++ head ++
    before, after ++ p.rest.flatMap Member.expressions, fun st => ?_⟩
  simp [Contract.expressions, whole, member, inner]

end Expressions

end SafeSubset
