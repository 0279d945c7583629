import SafeSubset.CommandLine.Arguments
import SafeSubset.CommandLine.Files

/-! The command itself. It reads one file, carries out the plan made for it,
and decides nothing else. -/
namespace SafeSubset.CommandLine

def FileError.ofFailure : IO.Error → FileError
  | .permissionDenied .. => .denied
  | .inappropriateType _ code _ => if code = 21 then .isDirectory else .notDirectory
  | .invalidArgument .. => .nameTooLong
  | _ => .notFound

def readInput (path : String) : IO (Except FileError Source) := do
  try
    let bytes ← IO.FS.readBinFile path
    match String.fromUTF8? bytes with
    | some text => return .ok text.toList
    | none => return .error .notUtf8
  catch e => return .error (.ofFailure e)

def writeOutput (output : Option String) (text : String) : IO (Option (String × FileError)) := do
  match output with
  | none =>
      IO.print text
      return none
  | some path =>
      try
        IO.FS.writeFile path text
        return none
      catch e => return some (path, .ofFailure e)

def perform (request : Request) : IO UInt32 := do
  match ← readInput request.path with
  | .error e =>
      IO.eprint (fileLine request.path e)
      return 2
  | .ok source =>
      let p := plan request source
      IO.eprint p.reports
      match p.text with
      | none => return UInt32.ofNat p.exitCode
      | some text =>
          match ← writeOutput request.output (String.ofList text) with
          | none => return UInt32.ofNat p.exitCode
          | some (path, e) =>
              IO.eprint (fileLine path e)
              return 2

end SafeSubset.CommandLine

def main (arguments : List String) : IO UInt32 := do
  match SafeSubset.CommandLine.Request.ofArguments arguments with
  | .ok request => SafeSubset.CommandLine.perform request
  | .error e =>
      IO.eprint (SafeSubset.CommandLine.errorLine e.message)
      return 2
