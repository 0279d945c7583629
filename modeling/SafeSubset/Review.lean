import SafeSubset.Calls.Recursion
import SafeSubset.Checked.Rewrite
import SafeSubset.Digest.Sha256
import SafeSubset.Grammar.SourceUnit
import SafeSubset.Typing.SourceUnit

/-! The review of a file: it has to be readable, its functions must not call
each other in a cycle, and if both hold its arithmetic can be made to check
itself. -/
namespace SafeSubset

/-- The reports on a file that could not be read: first the faults of its
tokens, then the failure of its syntax. -/
def Parsed.diagnostics (p : Parsed) : List Diagnostic :=
  p.faults.map (fun f => .error Diagnostic.tokenCode f.span f.message) ++
    match p.unit with
    | .ok _ => []
    | .error f => [.error Diagnostic.syntaxCode f.span f.message]

/-- Reads and types a file. A file with any fault is rejected. -/
def Source.front (source : Source) : Except (List Diagnostic) (SourceUnit Ty) :=
  let parsed := source.parse
  match parsed.unit, parsed.faults with
  | .ok u, [] => .ok u.annotate
  | _, _ => .error parsed.diagnostics

/-- The digests by which a run can be reproduced. -/
structure Provenance where
  sourceHash : String
  outputHash : Option String
  deriving DecidableEq, Repr

namespace Provenance

def toolVersion : String := "0.3.1"

/-- The digest of a text's UTF-8 form. -/
def hash (text : Source) : String :=
  Digest.hexText (Digest.sha256 (text.flatMap String.utf8EncodeChar))

def of (source : Source) (output : Option Source) : Provenance :=
  ⟨hash source, output.map hash⟩

def toJson (p : Provenance) : Json :=
  .object
    [("source_hash", .string p.sourceHash), ("output_hash", Json.ofOption .string p.outputHash),
     ("tool_version", .string toolVersion)]

end Provenance

/-- What a review is to do beyond reading the file. -/
structure ReviewOptions where
  recursionCheck : Bool
  harden : Bool
  deriving DecidableEq, Repr

structure Review where
  diagnostics : List Diagnostic
  hardened : Option Checked.Hardened
  provenance : Provenance

/-- Whether the file lies in the safe subset. -/
def Review.accepted (r : Review) : Bool := Diagnostic.onlyWarnings r.diagnostics

/-- The graph of a file's direct calls, checked for recursion if asked. -/
def SourceUnit.callGraph {α : Type} (u : SourceUnit α) (check : Bool) : Calls.Graph :=
  let g := Calls.Graph.empty.addUnit u
  if check then g.checkRecursion else g

/-- The reports on recursion. -/
def SourceUnit.recursionDiagnostics {α : Type} (u : SourceUnit α) : List Diagnostic :=
  (u.callGraph true).diagnostics

/-- Reviews a file. Its arithmetic is rewritten only if it is accepted. -/
def Source.review (source : Source) (options : ReviewOptions) : Except (List Diagnostic) Review :=
  source.front.map fun u =>
    let diagnostics := if options.recursionCheck then u.recursionDiagnostics else []
    let hardened :=
      if options.harden && Diagnostic.onlyWarnings diagnostics then some (Checked.harden source u)
      else none
    ⟨diagnostics, hardened, .of source (hardened.map fun h => h.text)⟩

end SafeSubset
