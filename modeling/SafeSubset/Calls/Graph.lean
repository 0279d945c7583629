import SafeSubset.Diagnostic
import SafeSubset.Syntax.Subexpressions

/-! The graph of direct calls. An edge stands for one or more calls of a
function by its bare name from the body or the modifiers of another function
of the same contract. Edges are numbered in the order in which they were
added, and no two edges join the same functions. The numbers of functions and
of edges have no bound here: there are assumed to be fewer than 2 ^ 32 of each. -/
namespace SafeSubset.Calls

variable {α : Type}

/-- A function as the graph knows it: told apart by its number. -/
structure Vertex where
  id : Nat
  name : String
  span : Span
  deriving DecidableEq, Repr

def Vertex.of (f : FunctionDef α) : Vertex := ⟨f.id, f.name.display, f.span⟩

structure Edge where
  caller : Vertex
  callee : Vertex
  deriving DecidableEq, Repr

namespace Edge

/-- Whether the edge leads from one function to another. -/
def Joins (e : Edge) (caller callee : Vertex) : Prop :=
  e.caller.id = caller.id ∧ e.callee.id = callee.id

instance (e : Edge) (caller callee : Vertex) : Decidable (e.Joins caller callee) :=
  inferInstanceAs (Decidable (_ ∧ _))

def text (e : Edge) : String := e.caller.name ++ " -> " ++ e.callee.name

end Edge

/-- A function with the contract that defines it. -/
structure Listed where
  contractId : Nat
  contract : String
  function : Vertex
  deriving DecidableEq, Repr

structure Graph where
  functions : List Listed
  edges : List Edge
  /-- The numbers of the edges of a reported cycle, in the order of the path. -/
  cycle : Option (List Nat)
  diagnostics : List Diagnostic
  deriving Repr

namespace Graph

def empty : Graph := ⟨[], [], none, []⟩

/-- The numbers of the edges that satisfy a condition. -/
def numbersWhere (g : Graph) (p : Edge → Bool) : List Nat :=
  (g.edges.zipIdx.filter fun e => p e.1).map Prod.snd

def outgoing (g : Graph) (v : Vertex) : List Nat := g.numbersWhere fun e => e.caller.id = v.id

def incoming (g : Graph) (v : Vertex) : List Nat := g.numbersWhere fun e => e.callee.id = v.id

/-- The number of the edge between two functions. -/
def edgeNumber? (g : Graph) (caller callee : Vertex) : Option Nat :=
  g.edges.findIdx? fun e => e.Joins caller callee

/-- Adds an edge unless it is there. -/
def insert (g : Graph) (caller callee : Vertex) : Graph :=
  match g.edgeNumber? caller callee with
  | some _ => g
  | none => { g with edges := g.edges ++ [⟨caller, callee⟩] }

/-- Removes an edge if it is there. Later edges move down by one, so a reported
cycle is forgotten. -/
def erase (g : Graph) (caller callee : Vertex) : Graph :=
  match g.edgeNumber? caller callee with
  | some n => { g with edges := g.edges.eraseIdx n, cycle := none }
  | none => g

/-- Whether nothing worse than a warning has been reported. -/
def isClean (g : Graph) : Bool := Diagnostic.onlyWarnings g.diagnostics

end Graph

/-- The name by which a function is called; one without a name is never
called. -/
def callName (f : FunctionDef α) : String := (f.name.ident?.map Ident.text).getD ""

/-- The function that a bare name stands for: the first of that name in the
contract itself. -/
def resolve (c : Contract α) (name : String) : Option (FunctionDef α) :=
  c.functions.find? fun f => callName f = name

/-- The function that an expression calls directly, if it is such a call. -/
def directCallee (c : Contract α) : Expr α → Option (FunctionDef α)
  | .call _ callee _ _ => callee.name?.bind (resolve c)
  | _ => none

/-- The functions called by a function of a contract, call by call. -/
def callees (c : Contract α) (f : FunctionDef α) : List (FunctionDef α) :=
  f.expressions.filterMap (directCallee c)

namespace Graph

def addFunction (c : Contract α) (g : Graph) (f : FunctionDef α) : Graph :=
  (callees c f).foldl (fun g callee => g.insert (Vertex.of f) (Vertex.of callee)) g

def addContract (g : Graph) (c : Contract α) : Graph :=
  let listed := c.functions.map fun f => ⟨c.id, c.name.text, Vertex.of f⟩
  c.functions.foldl (addFunction c) { g with functions := g.functions ++ listed }

/-- Adds the functions and the direct calls of a file. -/
def addUnit (g : Graph) (u : SourceUnit α) : Graph := u.contracts.foldl addContract g

end Graph
end SafeSubset.Calls
