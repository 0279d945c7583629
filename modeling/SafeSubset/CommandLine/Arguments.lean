import SafeSubset.CommandLine.Plan

/-! The arguments of the command. Options may stand before or behind the input
file, and a value may be joined to its option. -/
namespace SafeSubset.CommandLine

/-- Why the arguments make no request. -/
inductive UsageError where
  | missingSource
  | missingValue (option : String)
  | unknownEmit (value : String)
  | unexpected (argument : String)
  deriving DecidableEq, Repr

def UsageError.message : UsageError → String
  | missingSource => "no input file was given"
  | missingValue option => "a value is required for " ++ option
  | unknownEmit value => "invalid output stage: " ++ value
  | unexpected argument => "unexpected argument: " ++ argument

/-- What the arguments have said so far. -/
structure Arguments where
  source : Option String
  emit : Emit
  recursionCheck : Bool
  output : Option String
  deriving DecidableEq, Repr

namespace Arguments

def initial : Arguments := ⟨none, .harden, true, none⟩

def withEmit (a : Arguments) (value : String) : Except UsageError Arguments :=
  match Emit.ofText? value with
  | some emit => .ok { a with emit }
  | none => .error (.unknownEmit value)

def withSource (a : Arguments) (value : String) : Except UsageError Arguments :=
  match a.source with
  | none => .ok { a with source := some value }
  | some _ => .error (.unexpected value)

/-- The value joined to an option. -/
def joined? (option argument : String) : Option String :=
  if argument.startsWith option then some (argument.drop option.length).toString else none

/-- An argument that needs no other one. -/
def single (a : Arguments) (argument : String) : Except UsageError Arguments :=
  if argument = "--no-recursion-check" then .ok { a with recursionCheck := false }
  else if argument = "--verbose" then .ok a
  else
    match joined? "--emit=" argument, joined? "--output=" argument with
    | some value, _ => a.withEmit value
    | none, some value => .ok { a with output := some value }
    | none, none =>
        if argument.startsWith "--" then .error (.unexpected argument)
        else
          match joined? "-o" argument with
          | some value => .ok { a with output := some value }
          | none =>
              if argument.startsWith "-" ∧ argument ≠ "-" then .error (.unexpected argument)
              else a.withSource argument

def readFrom (a : Arguments) : List String → Except UsageError Arguments
  | [] => .ok a
  | [last] =>
      if last = "--emit" ∨ last = "--output" ∨ last = "-o" then .error (.missingValue last)
      else a.single last
  | first :: second :: rest =>
      if first = "--emit" then (a.withEmit second).bind fun a => a.readFrom rest
      else if first = "--output" ∨ first = "-o" then
        { a with output := some second }.readFrom rest
      else (a.single first).bind fun a => a.readFrom (second :: rest)

end Arguments

/-- The request that the arguments make. -/
def Request.ofArguments (arguments : List String) : Except UsageError Request := do
  let a ← Arguments.initial.readFrom arguments
  match a.source with
  | some path => return ⟨path, a.emit, a.recursionCheck, a.output⟩
  | none => throw .missingSource

end SafeSubset.CommandLine
