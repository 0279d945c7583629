import SafeSubset.Grammar.SourceUnit
import SafeSubset.Proofs.Syntax.Bare
import SafeSubset.Proofs.Token.Twins

/-! Syntax stripped of what trivia have a part in: of all places, and of what stands
between a number and its unit. The notes of the nodes and the numbers of the
definitions stay. -/
namespace SafeSubset

variable {α : Type}

section Definitions

def Info.stripped (i : Info α) : Info α := ⟨.point 0, i.note⟩

mutual
def Expr.stripped : Expr α → Expr α
  | .identifier i n => .identifier i.stripped n
  | .number i t => .number i.stripped (Token.respaced t)
  | .string i t => .string i.stripped t
  | .bool i b => .bool i.stripped b
  | .elementary i t => .elementary i.stripped t
  | .binary i op l r => .binary i.stripped op l.stripped r.stripped
  | .unary i op fixity e => .unary i.stripped op fixity e.stripped
  | .assign i op l r => .assign i.stripped op l.stripped r.stripped
  | .call i callee args names =>
      .call i.stripped callee.stripped (Expr.strippedAll args) (names.map Ident.bare)
  | .member i base m => .member i.stripped base.stripped m.bare
  | .index i base none => .index i.stripped base.stripped none
  | .index i base (some k) => .index i.stripped base.stripped (some k.stripped)
  | .conditional i c t f => .conditional i.stripped c.stripped t.stripped f.stripped
  | .tuple i es => .tuple i.stripped (Expr.strippedAll es)
  | .new i t => .new i.stripped t.bare

def Expr.strippedAll : List (Expr α) → List (Expr α)
  | [] => []
  | e :: es => e.stripped :: Expr.strippedAll es
end

def Variable.stripped (v : Variable α) : Variable α :=
  ⟨v.type.bare, v.name.bare, v.value.map Expr.stripped, .point 0⟩

mutual
def Stmt.stripped : Stmt α → Stmt α
  | .block _ body => .block (.point 0) (Stmt.strippedAll body)
  | .declare _ v => .declare (.point 0) v.stripped
  | .expression _ e => .expression (.point 0) e.stripped
  | .if _ c t none => .if (.point 0) c.stripped t.stripped none
  | .if _ c t (some f) => .if (.point 0) c.stripped t.stripped (some f.stripped)
  | .while _ c b => .while (.point 0) c.stripped b.stripped
  | .doWhile _ b c => .doWhile (.point 0) b.stripped c.stripped
  | .for _ none c step b =>
      .for (.point 0) none (c.map Expr.stripped) (step.map Expr.stripped) b.stripped
  | .for _ (some i) c step b =>
      .for (.point 0) (some i.stripped) (c.map Expr.stripped) (step.map Expr.stripped) b.stripped
  | .return _ value => .return (.point 0) (value.map Expr.stripped)
  | .emit _ e => .emit (.point 0) e.stripped
  | .break _ => .break (.point 0)
  | .continue _ => .continue (.point 0)
  | .throw _ => .throw (.point 0)

def Stmt.strippedAll : List (Stmt α) → List (Stmt α)
  | [] => []
  | s :: ss => s.stripped :: Stmt.strippedAll ss
end

def Block.stripped (b : Block α) : Block α := ⟨Stmt.strippedAll b.body, .point 0⟩

def Parameter.stripped (p : Parameter) : Parameter := ⟨p.type.bare, p.name.map Ident.bare, .point 0⟩

def Field.stripped (f : Field) : Field := ⟨f.type.bare, f.name.bare, .point 0⟩

def FunctionName.stripped : FunctionName → FunctionName
  | named n => named n.bare
  | constructor => constructor
  | fallback => fallback

def Invocation.stripped (m : Invocation α) : Invocation α :=
  ⟨m.name.bare, m.args.map Expr.stripped, .point 0⟩

def FunctionDef.stripped (f : FunctionDef α) : FunctionDef α where
  id := f.id
  name := f.name.stripped
  params := f.params.map Parameter.stripped
  returns := f.returns.map Parameter.stripped
  attributes := f.attributes
  modifiers := f.modifiers.map Invocation.stripped
  body := f.body.map Block.stripped
  span := .point 0

def ModifierDef.stripped (m : ModifierDef α) : ModifierDef α :=
  ⟨m.name.bare, m.params.map Parameter.stripped, m.body.stripped, .point 0⟩

def UsingDirective.stripped (u : UsingDirective) : UsingDirective :=
  ⟨u.library.bare, u.target.map TypeName.bare, .point 0⟩

def EventDef.stripped (e : EventDef) : EventDef :=
  ⟨e.name.bare, e.params.map Parameter.stripped, .point 0⟩

def StructDef.stripped (s : StructDef) : StructDef :=
  ⟨s.name.bare, s.fields.map Field.stripped, .point 0⟩

def EnumDef.stripped (e : EnumDef) : EnumDef := ⟨e.name.bare, e.values.map Ident.bare, .point 0⟩

def Member.stripped : Member α → Member α
  | .state v => .state v.stripped
  | .function f => .function f.stripped
  | .modifier m => .modifier m.stripped
  | .directive u => .directive u.stripped
  | .event e => .event e.stripped
  | .struct s => .struct s.stripped
  | .enum e => .enum e.stripped

def Base.stripped (b : Base α) : Base α :=
  ⟨b.name.bare, b.args.map (List.map Expr.stripped), .point 0⟩

def Contract.stripped (c : Contract α) : Contract α where
  id := c.id
  kind := c.kind
  name := c.name.bare
  bases := c.bases.map Base.stripped
  members := c.members.map Member.stripped
  span := .point 0

def Node.stripped : Node α → Node α
  | .pragma _ => .pragma (.point 0)
  | .inclusion _ => .inclusion (.point 0)
  | .contract c => .contract c.stripped

def SourceUnit.stripped (u : SourceUnit α) : SourceUnit α := ⟨u.nodes.map Node.stripped, .point 0⟩

end Definitions

section Expressions

theorem Expr.strippedAll_eq (es : List (Expr α)) : strippedAll es = es.map stripped := by
  induction es with
  | nil => rfl
  | cons e es ih => simp [strippedAll, ih]

theorem Stmt.strippedAll_eq (ss : List (Stmt α)) : strippedAll ss = ss.map stripped := by
  induction ss with
  | nil => rfl
  | cons s ss ih => simp [strippedAll, ih]

theorem Expr.note_stripped (e : Expr α) : e.stripped.note = e.note := by
  cases e with
  | index i base k => cases k <;> rfl
  | _ => rfl

theorem Expr.name_stripped (e : Expr α) : e.stripped.name? = e.name? := by
  cases e with
  | index i base k => cases k <;> rfl
  | _ => rfl

theorem Expr.children_stripped (e : Expr α) : e.stripped.children = e.children.map stripped := by
  cases e with
  | index i base k => cases k <;> rfl
  | _ => simp [stripped, children, strippedAll_eq]

theorem Expr.subexpressions_stripped (e : Expr α) :
    e.stripped.subexpressions = e.subexpressions.map stripped := by
  induction e using induction_children with
  | node e ih =>
      rw [subexpressions_eq, subexpressions_eq e, children_stripped, List.flatMap_map,
        List.map_append, List.map_flatMap, List.map_singleton]
      congr 1
      exact List.flatMap_congr ih

theorem flatMap_subexpressions_stripped (es : List (Expr α)) :
    (es.map Expr.stripped).flatMap Expr.subexpressions =
      (es.flatMap Expr.subexpressions).map Expr.stripped := by
  simp only [List.flatMap_map, List.map_flatMap, Expr.subexpressions_stripped]

mutual
theorem Stmt.roots_stripped : (s : Stmt α) → s.stripped.roots = s.roots.map Expr.stripped
  | .block _ body => by simp [Stmt.stripped, Stmt.roots, Stmt.rootsAll_stripped body]
  | .declare _ v => by
      cases value : v.value <;> simp [Stmt.stripped, Stmt.roots, Variable.stripped, value]
  | .expression _ _ | .emit _ _ => by simp [Stmt.stripped, Stmt.roots]
  | .if _ _ t none => by simp [Stmt.stripped, Stmt.roots, Stmt.roots_stripped t]
  | .if _ _ t (some e) => by
      simp [Stmt.stripped, Stmt.roots, Stmt.roots_stripped t, Stmt.roots_stripped e]
  | .while _ _ b => by simp [Stmt.stripped, Stmt.roots, Stmt.roots_stripped b]
  | .doWhile _ b _ => by simp [Stmt.stripped, Stmt.roots, Stmt.roots_stripped b]
  | .for _ none c step b => by
      cases c <;> cases step <;> simp [Stmt.stripped, Stmt.roots, Stmt.roots_stripped b]
  | .for _ (some i) c step b => by
      cases c <;> cases step <;>
        simp [Stmt.stripped, Stmt.roots, Stmt.roots_stripped i, Stmt.roots_stripped b]
  | .return _ value => by cases value <;> simp [Stmt.stripped, Stmt.roots]
  | .break _ | .continue _ | .throw _ => by simp [Stmt.stripped, Stmt.roots]

theorem Stmt.rootsAll_stripped : (ss : List (Stmt α)) →
    Stmt.rootsAll (Stmt.strippedAll ss) = (Stmt.rootsAll ss).map Expr.stripped
  | [] => rfl
  | s :: ss => by
      simp [Stmt.strippedAll, Stmt.rootsAll, Stmt.roots_stripped s, Stmt.rootsAll_stripped ss]
end

theorem FunctionDef.roots_stripped (f : FunctionDef α) :
    f.stripped.roots = f.roots.map Expr.stripped := by
  unfold FunctionDef.roots FunctionDef.stripped
  cases f.body <;>
    simp [List.flatMap_map, List.map_flatMap, Invocation.stripped, Block.stripped,
      Stmt.rootsAll_stripped]

theorem Member.roots_stripped (m : Member α) : m.stripped.roots = m.roots.map Expr.stripped := by
  cases m with
  | state v => cases value : v.value <;> simp [roots, stripped, Variable.stripped, value]
  | function f => exact f.roots_stripped
  | modifier m =>
      simp [roots, stripped, ModifierDef.stripped, Block.stripped, Stmt.rootsAll_stripped]
  | directive u | event e | struct s | enum e => rfl

theorem Base.roots_stripped (b : Base α) : b.stripped.roots = b.roots.map Expr.stripped := by
  cases args : b.args <;> simp [roots, stripped, args]

theorem Contract.roots_stripped (c : Contract α) : c.stripped.roots = c.roots.map Expr.stripped := by
  simp [roots, stripped, List.flatMap_map, List.map_flatMap, Base.roots_stripped,
    Member.roots_stripped]

theorem FunctionDef.expressions_stripped (f : FunctionDef α) :
    f.stripped.expressions = f.expressions.map Expr.stripped := by
  rw [expressions_eq, expressions_eq, roots_stripped, flatMap_subexpressions_stripped]

theorem Contract.expressions_stripped (c : Contract α) :
    c.stripped.expressions = c.expressions.map Expr.stripped := by
  rw [expressions_eq, expressions_eq, roots_stripped, flatMap_subexpressions_stripped]

end Expressions

section Files

theorem Contract.functions_stripped (c : Contract α) :
    c.stripped.functions = c.functions.map FunctionDef.stripped := by
  simp only [functions, stripped, List.filterMap_map, List.map_filterMap]
  refine List.filterMap_congr fun m _ => ?_
  cases m <;> rfl

theorem Contract.directives_stripped (c : Contract α) :
    c.stripped.directives = c.directives.map UsingDirective.stripped := by
  simp only [directives, stripped, List.filterMap_map, List.map_filterMap]
  refine List.filterMap_congr fun m _ => ?_
  cases m <;> rfl

theorem SourceUnit.contracts_stripped (u : SourceUnit α) :
    u.stripped.contracts = u.contracts.map Contract.stripped := by
  simp only [contracts, stripped, List.filterMap_map, List.map_filterMap]
  refine List.filterMap_congr fun n _ => ?_
  cases n <;> rfl

theorem SourceUnit.expressions_stripped (u : SourceUnit α) :
    u.stripped.expressions = u.expressions.map Expr.stripped := by
  simp only [expressions, contracts_stripped, List.flatMap_map, List.map_flatMap,
    Contract.expressions_stripped]

theorem numberMembers_stripped (id : Nat) (ms : List (Member α)) :
    numberMembers id (ms.map Member.stripped) =
      ((numberMembers id ms).1, (numberMembers id ms).2.map Member.stripped) := by
  induction ms generalizing id with
  | nil => rfl
  | cons m ms ih => cases m <;> simp [numberMembers, Member.stripped, ih, FunctionDef.stripped]

/-- Numbers are given whatever the places. -/
theorem numberNodes_stripped (id : Nat) (ns : List (Node α)) :
    numberNodes id (ns.map Node.stripped) = (numberNodes id ns).map Node.stripped := by
  induction ns generalizing id with
  | nil => rfl
  | cons n ns ih =>
      cases n with
      | pragma s | inclusion s => simp [numberNodes, Node.stripped, ih]
      | contract c =>
          simp [numberNodes, Node.stripped, Contract.stripped, numberMembers_stripped, ih]

end Files
end SafeSubset
