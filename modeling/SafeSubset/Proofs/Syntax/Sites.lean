import SafeSubset.Proofs.Syntax.Roots

/-! Where the roots of a contract stand: each with the names of the local variables that are
visible there. A declaration is visible from the next statement to the end of its block, and
the parameters and return values of a function in all of it. -/
namespace SafeSubset

variable {α : Type}

/-- An expression, and the local names that are visible where it stands. -/
abbrev Site (α : Type) := List String × Expr α

/-- Some expressions where the given names are visible. -/
def seeing (visible : List String) (es : List (Expr α)) : List (Site α) :=
  es.map fun e => (visible, e)

/-- The names that a statement adds to those visible behind it. -/
def Stmt.declared : Stmt α → List String
  | .declare _ v => [v.name.text]
  | .if _ _ t none => t.declared
  | .if _ _ t (some f) => f.declared ++ t.declared
  | .while _ _ b | .doWhile _ b _ => b.declared
  | .block .. | .expression .. | .for .. | .return .. | .emit .. | .break _ | .continue _
  | .throw _ => []

mutual
def Stmt.sites (visible : List String) : Stmt α → List (Site α)
  | .block _ body => Stmt.sitesAll visible body
  | .declare _ v => seeing visible v.value.toList
  | .expression _ e => seeing visible [e]
  | .if _ c t none => (visible, c) :: t.sites visible
  | .if _ c t (some f) => (visible, c) :: (t.sites visible ++ f.sites (t.declared ++ visible))
  | .while _ c b => (visible, c) :: b.sites visible
  | .doWhile _ b c => b.sites visible ++ [(visible, c)]
  | .for _ none c step b => seeing visible (c.toList ++ step.toList) ++ b.sites visible
  | .for _ (some i) c step b =>
      i.sites visible ++ seeing (i.declared ++ visible) (c.toList ++ step.toList) ++
        b.sites (i.declared ++ visible)
  | .return _ value => seeing visible value.toList
  | .emit _ e => seeing visible [e]
  | .break _ | .continue _ | .throw _ => []

def Stmt.sitesAll (visible : List String) : List (Stmt α) → List (Site α)
  | [] => []
  | s :: ss => s.sites visible ++ Stmt.sitesAll (s.declared ++ visible) ss
end

/-- The names among some parameters. -/
def parameterNames (ps : List Parameter) : List String :=
  ps.filterMap fun p => p.name.map Ident.text

def FunctionDef.sites (f : FunctionDef α) : List (Site α) :=
  let visible := parameterNames (f.params ++ f.returns)
  seeing visible (f.modifiers.flatMap Invocation.args) ++
    (f.body.map fun b => Stmt.sitesAll visible b.body).getD []

def Member.sites : Member α → List (Site α)
  | .state v => seeing [] v.value.toList
  | .function f => f.sites
  | .modifier m => Stmt.sitesAll (parameterNames m.params) m.body.body
  | .directive _ | .event _ | .struct _ | .enum _ => []

def Base.sites (b : Base α) : List (Site α) := seeing [] b.roots

/-- The roots of a contract with what is visible where they stand. -/
def Contract.sites (c : Contract α) : List (Site α) :=
  c.bases.flatMap Base.sites ++ c.members.flatMap Member.sites

@[simp] theorem map_snd_seeing (visible : List String) (es : List (Expr α)) :
    (seeing visible es).map Prod.snd = es := by
  simp [seeing, Function.comp_def]

mutual
theorem Stmt.roots_eq_sites (visible : List String) : (s : Stmt α) →
    (s.sites visible).map Prod.snd = s.roots
  | .block _ body => by simp [sites, roots, rootsAll_eq_sites visible body]
  | .declare .. | .expression .. | .return .. | .emit .. => by simp [sites, roots]
  | .if _ _ t none => by simp [sites, roots, roots_eq_sites visible t]
  | .if _ _ t (some f) => by
      simp [sites, roots, roots_eq_sites visible t, roots_eq_sites (t.declared ++ visible) f]
  | .while _ _ b | .doWhile _ b _ => by simp [sites, roots, roots_eq_sites visible b]
  | .for _ none _ _ b => by simp [sites, roots, roots_eq_sites visible b]
  | .for _ (some i) _ _ b => by
      simp [sites, roots, roots_eq_sites visible i, roots_eq_sites (i.declared ++ visible) b]
  | .break _ | .continue _ | .throw _ => by simp [sites, roots]

theorem Stmt.rootsAll_eq_sites (visible : List String) : (ss : List (Stmt α)) →
    (Stmt.sitesAll visible ss).map Prod.snd = Stmt.rootsAll ss
  | [] => rfl
  | s :: ss => by
      simp [sitesAll, rootsAll, roots_eq_sites visible s, rootsAll_eq_sites (s.declared ++ visible) ss]
end

theorem Member.roots_eq_sites (m : Member α) : m.sites.map Prod.snd = m.roots := by
  cases m with
  | function f =>
      cases body : f.body <;> simp [sites, roots, FunctionDef.sites, FunctionDef.roots, body,
        Stmt.rootsAll_eq_sites]
  | modifier m => exact Stmt.rootsAll_eq_sites _ _
  | _ => simp [sites, roots]

/-- Every root of a contract stands at a site, and nothing else does. -/
theorem Contract.roots_eq_sites (c : Contract α) : c.sites.map Prod.snd = c.roots := by
  simp [sites, roots, List.map_flatMap, Base.sites, Member.roots_eq_sites]

theorem Contract.mem_expressions_iff_sites {c : Contract α} {e : Expr α} :
    e ∈ c.expressions ↔ ∃ site ∈ c.sites, e ∈ site.2.subexpressions := by
  rw [c.expressions_eq, ← c.roots_eq_sites, List.flatMap_map, List.mem_flatMap]

end SafeSubset
