import SafeSubset.Calls.Graphviz
import SafeSubset.Calls.Listing
import SafeSubset.Review

/-! What the command does with the text of its input file: the reports, the
text to be put out, if there is any, and the exit code. -/
namespace SafeSubset.CommandLine

/-- What is to be put out. -/
inductive Emit where
  | check | harden | callgraph | dot | json
  deriving DecidableEq, Repr

namespace Emit

def text : Emit → String
  | check => "check"
  | harden => "harden"
  | callgraph => "callgraph"
  | dot => "dot"
  | json => "json"

def ofText? (s : String) : Option Emit :=
  [check, harden, callgraph, dot, json].find? fun e => e.text == s

end Emit

/-- What the command is asked to do. -/
structure Request where
  path : String
  emit : Emit
  recursionCheck : Bool
  /-- The file to write, the standard output if there is none. -/
  output : Option String
  deriving DecidableEq, Repr

/-- What is to be done, all reading behind and all writing ahead. -/
structure Plan where
  reports : String
  text : Option Source
  exitCode : Nat
  deriving DecidableEq, Repr

/-- The line on a failure of the command itself. -/
def errorLine (message : String) : String := "ssc: error: " ++ message ++ "\n"

/-- The reports, each on lines of its own. -/
def reportText (path : String) (source : Source) (ds : List Diagnostic) : String :=
  String.join (ds.map fun d => d.render path source ++ "\n")

/-- The exit code of a file that could be read. -/
def verdictCode (accepted : Bool) : Nat := if accepted then 0 else 1

/-- How many errors kept a file from being read. -/
def rejectionMessage (ds : List Diagnostic) : String :=
  "source has " ++ toString ds.length ++ " syntax error(s)"

def rejectionPlan (path : String) (source : Source) (ds : List Diagnostic) : Plan :=
  ⟨reportText path source ds ++ errorLine (rejectionMessage ds), none, 1⟩

/-- The graph, the reports on it and the digest of the source. -/
def graphReport (g : Calls.Graph) (source : Source) : String :=
  let members :=
    match g.toJson with
    | .object ms => ms
    | _ => []
  (Json.object (members ++ [("provenance", (Provenance.of source none).toJson)])).sorted.pretty
    ++ "\n"

def reviewPlan (request : Request) (source : Source) : Plan :=
  match source.review ⟨request.recursionCheck, request.emit = .harden⟩ with
  | .error ds => rejectionPlan request.path source ds
  | .ok r =>
      ⟨reportText request.path source r.diagnostics, r.hardened.map fun h => h.text,
        verdictCode r.accepted⟩

/-- The graph is put out even if it has a cycle. -/
def graphPlan (request : Request) (source : Source) (text : Calls.Graph → String) : Plan :=
  match source.front with
  | .error ds => rejectionPlan request.path source ds
  | .ok u =>
      let g := u.callGraph request.recursionCheck
      ⟨reportText request.path source g.diagnostics, some (text g).toList, verdictCode g.isClean⟩

/-- What to do with the text of the input file. -/
def plan (request : Request) (source : Source) : Plan :=
  match request.emit with
  | .check | .harden => reviewPlan request source
  | .callgraph => graphPlan request source Calls.Graph.listing
  | .dot => graphPlan request source Calls.Graph.graphviz
  | .json => graphPlan request source fun g => graphReport g source

end SafeSubset.CommandLine
