import SafeSubset.Typing.Statement

/-! Typing of a whole file. -/
namespace SafeSubset

namespace Typing

variable {α : Type}

namespace Surroundings

/-- The named ones among the parameters, as the variables of one block. -/
def parameters (s : Surroundings) (ps : List Parameter) : Locals :=
  ps.foldl
    (fun locals p =>
      match p.name with
      | some name => locals.declare name.text (s.file.resolve p.type)
      | none => locals)
    [[]]

def function (s : Surroundings) (f : FunctionDef α) : FunctionDef Ty :=
  let locals := s.parameters (f.params ++ f.returns)
  { f with
    modifiers := f.modifiers.map fun m => ⟨m.name, m.args.map (s.expr locals), m.span⟩
    body := f.body.map (s.block locals) }

def modifier (s : Surroundings) (m : ModifierDef α) : ModifierDef Ty :=
  { m with body := s.block (s.parameters m.params) m.body }

def member (s : Surroundings) : Member α → Member Ty
  | .state v => .state (s.var [] v)
  | .function f => .function (s.function f)
  | .modifier m => .modifier (s.modifier m)
  | .directive u => .directive u
  | .event e => .event e
  | .struct d => .struct d
  | .enum e => .enum e

def base (s : Surroundings) (b : Base α) : Base Ty :=
  ⟨b.name, b.args.map fun args => args.map (s.expr []), b.span⟩

def contractDef (s : Surroundings) (c : Contract α) : Contract Ty :=
  { c with
    bases := c.bases.map s.base
    members := c.members.map s.member }

end Surroundings
end Typing

/-- Types every expression of a file. -/
def SourceUnit.annotate {α : Type} (u : SourceUnit α) : SourceUnit Ty :=
  let file := Typing.FileScope.of u
  { u with
    nodes := u.nodes.map fun
      | .pragma span => .pragma span
      | .inclusion span => .inclusion span
      | .contract c =>
          .contract
            (Typing.Surroundings.contractDef ⟨file, Typing.ContractScope.of file u.contracts c⟩ c) }

end SafeSubset
