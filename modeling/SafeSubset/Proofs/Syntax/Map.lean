import SafeSubset.Proofs.Syntax.Roots

/-! Replacing the roots of a piece of syntax, with everything else as it is. -/
namespace SafeSubset

variable {α β : Type} (f : Expr α → Expr β)

def Variable.mapRoots (v : Variable α) : Variable β := ⟨v.type, v.name, v.value.map f, v.span⟩

mutual
def Stmt.mapRoots : Stmt α → Stmt β
  | .block span body => .block span (Stmt.mapRootsAll body)
  | .declare span v => .declare span (v.mapRoots f)
  | .expression span e => .expression span (f e)
  | .if span c t none => .if span (f c) t.mapRoots none
  | .if span c t (some e) => .if span (f c) t.mapRoots (some e.mapRoots)
  | .while span c b => .while span (f c) b.mapRoots
  | .doWhile span b c => .doWhile span b.mapRoots (f c)
  | .for span none c step b => .for span none (c.map f) (step.map f) b.mapRoots
  | .for span (some i) c step b => .for span (some i.mapRoots) (c.map f) (step.map f) b.mapRoots
  | .return span value => .return span (value.map f)
  | .emit span e => .emit span (f e)
  | .break span => .break span
  | .continue span => .continue span
  | .throw span => .throw span

def Stmt.mapRootsAll : List (Stmt α) → List (Stmt β)
  | [] => []
  | s :: ss => s.mapRoots :: Stmt.mapRootsAll ss
end

def Block.mapRoots (b : Block α) : Block β := ⟨Stmt.mapRootsAll f b.body, b.span⟩

def Invocation.mapRoots (m : Invocation α) : Invocation β := ⟨m.name, m.args.map f, m.span⟩

def FunctionDef.mapRoots (d : FunctionDef α) : FunctionDef β :=
  { d with
    modifiers := d.modifiers.map (Invocation.mapRoots f)
    body := d.body.map (Block.mapRoots f) }

def Member.mapRoots : Member α → Member β
  | .state v => .state (v.mapRoots f)
  | .function d => .function (d.mapRoots f)
  | .modifier m => .modifier { m with body := m.body.mapRoots f }
  | .directive u => .directive u
  | .event e => .event e
  | .struct d => .struct d
  | .enum e => .enum e

def Base.mapRoots (b : Base α) : Base β := ⟨b.name, b.args.map (List.map f), b.span⟩

def Contract.mapRoots (c : Contract α) : Contract β :=
  { c with
    bases := c.bases.map (Base.mapRoots f)
    members := c.members.map (Member.mapRoots f) }

def Node.mapRoots : Node α → Node β
  | .pragma span => .pragma span
  | .inclusion span => .inclusion span
  | .contract c => .contract (c.mapRoots f)

def SourceUnit.mapRoots (u : SourceUnit α) : SourceUnit β := ⟨u.nodes.map (Node.mapRoots f), u.span⟩

mutual
theorem Stmt.roots_mapRoots : (s : Stmt α) → (s.mapRoots f).roots = s.roots.map f
  | .block _ body => by simp [Stmt.mapRoots, Stmt.roots, Stmt.rootsAll_mapRootsAll body]
  | .declare _ v => by cases h : v.value <;> simp [Stmt.mapRoots, Stmt.roots, Variable.mapRoots, h]
  | .expression _ _ | .emit _ _ => by simp [Stmt.mapRoots, Stmt.roots]
  | .if _ _ t none => by simp [Stmt.mapRoots, Stmt.roots, Stmt.roots_mapRoots t]
  | .if _ _ t (some e) => by
      simp [Stmt.mapRoots, Stmt.roots, Stmt.roots_mapRoots t, Stmt.roots_mapRoots e]
  | .while _ _ b => by simp [Stmt.mapRoots, Stmt.roots, Stmt.roots_mapRoots b]
  | .doWhile _ b _ => by simp [Stmt.mapRoots, Stmt.roots, Stmt.roots_mapRoots b]
  | .for _ none c step b => by
      cases c <;> cases step <;> simp [Stmt.mapRoots, Stmt.roots, Stmt.roots_mapRoots b]
  | .for _ (some i) c step b => by
      cases c <;> cases step <;>
        simp [Stmt.mapRoots, Stmt.roots, Stmt.roots_mapRoots i, Stmt.roots_mapRoots b]
  | .return _ value => by cases value <;> simp [Stmt.mapRoots, Stmt.roots]
  | .break _ | .continue _ | .throw _ => by simp [Stmt.mapRoots, Stmt.roots]

theorem Stmt.rootsAll_mapRootsAll : (ss : List (Stmt α)) →
    Stmt.rootsAll (Stmt.mapRootsAll f ss) = (Stmt.rootsAll ss).map f
  | [] => rfl
  | s :: ss => by
      simp [Stmt.mapRootsAll, Stmt.rootsAll, Stmt.roots_mapRoots s, Stmt.rootsAll_mapRootsAll ss]
end

theorem FunctionDef.roots_mapRoots (d : FunctionDef α) :
    (d.mapRoots f).roots = d.roots.map f := by
  unfold FunctionDef.roots FunctionDef.mapRoots
  cases d.body <;>
    simp [List.flatMap_map, List.map_flatMap, Invocation.mapRoots, Block.mapRoots,
      Stmt.rootsAll_mapRootsAll]

theorem Member.roots_mapRoots (m : Member α) : (m.mapRoots f).roots = m.roots.map f := by
  cases m with
  | state v => cases h : v.value <;> simp [Member.roots, Member.mapRoots, Variable.mapRoots, h]
  | function d => exact d.roots_mapRoots f
  | _ => simp [Member.roots, Member.mapRoots, Block.mapRoots, Stmt.rootsAll_mapRootsAll]

theorem Base.roots_mapRoots (b : Base α) : (b.mapRoots f).roots = b.roots.map f := by
  cases h : b.args <;> simp [Base.roots, Base.mapRoots, h]

/-- The roots of the result are the images of the roots. -/
theorem Contract.roots_mapRoots (c : Contract α) : (c.mapRoots f).roots = c.roots.map f := by
  simp [Contract.roots, Contract.mapRoots, List.flatMap_map, List.map_flatMap,
    Base.roots_mapRoots, Member.roots_mapRoots]

/-- The functions of the result are those that were there, each with the images of its roots. -/
theorem Contract.functions_mapRoots (c : Contract α) :
    (c.mapRoots f).functions = c.functions.map (FunctionDef.mapRoots f) := by
  simp only [functions, mapRoots, List.filterMap_map, List.map_filterMap]
  congr 1
  funext m
  cases m <;> rfl

theorem SourceUnit.contracts_mapRoots (u : SourceUnit α) :
    (u.mapRoots f).contracts = u.contracts.map (Contract.mapRoots f) := by
  simp only [contracts, mapRoots, List.filterMap_map, List.map_filterMap]
  congr 1
  funext n
  cases n <;> rfl

end SafeSubset
