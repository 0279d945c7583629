import SafeSubset.Json
import SafeSubset.Source.Position

/-! What is reported to the user. A file is accepted when nothing worse than a
warning was reported. -/
namespace SafeSubset

inductive Level where
  | error | warning
  deriving DecidableEq, Repr

def Level.text : Level → String
  | error => "error"
  | warning => "warning"

/-- Another place that a report refers to. -/
structure Related where
  span : Span
  label : String
  deriving DecidableEq, Repr

structure Diagnostic where
  code : Option String
  level : Level
  span : Span
  message : String
  hint : Option String
  related : List Related
  deriving DecidableEq, Repr

namespace Diagnostic

/-- The codes of the reports. A code never changes its meaning. -/
def tokenCode : String := "E0001"

def syntaxCode : String := "E0002"

def recursionCode : String := "E0100"

/-- An error with a code and nothing else. -/
def error (code : String) (span : Span) (message : String) : Diagnostic :=
  ⟨some code, .error, span, message, none, []⟩

/-- The report without its place. -/
def text (d : Diagnostic) : String :=
  d.level.text ++ (d.code.map fun c => "[" ++ c ++ "]").getD "" ++ ": " ++ d.message
    ++ (d.hint.map fun h => "\n  hint: " ++ h).getD ""

/-- A place as `path:line:column`. -/
def place (path : String) (source : Source) (span : Span) : String :=
  let p := Source.position source span.start
  path ++ ":" ++ toString p.line ++ ":" ++ toString p.column

/-- The report with its place and the places it refers to. -/
def render (path : String) (source : Source) (d : Diagnostic) : String :=
  d.text ++ "\n  --> " ++ place path source d.span
    ++ String.join (d.related.map fun r =>
      "\n  note: " ++ r.label ++ " (" ++ place path source r.span ++ ")")

def spanJson (s : Span) : Json := .object [("start", .number s.start), ("end", .number s.stop)]

def toJson (d : Diagnostic) : Json :=
  .object
    [("code", Json.ofOption .string d.code),
     ("level", .string d.level.text),
     ("span", spanJson d.span),
     ("message", .string d.message),
     ("hint", Json.ofOption .string d.hint),
     ("related_spans",
       .array (d.related.map fun r => .object [("span", spanJson r.span), ("label", .string r.label)]))]

/-- Whether no report is an error. -/
def onlyWarnings (ds : List Diagnostic) : Bool := ds.all fun d => d.level = .warning

end Diagnostic
end SafeSubset
