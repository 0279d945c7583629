import SafeSubset.CommandLine.Path
import SafeSubset.CommandLine.Plan

/-! The command on a directory of files: what it prints, and what the
directory holds afterwards. -/
namespace SafeSubset.CommandLine

namespace Files

def read (files : Files) (path : String) : Except FileError Source := do
  match ← destination files path with
  | .directory => throw .isDirectory
  | .entry directory component slash =>
      if longestComponent < component.utf8ByteSize then throw .nameTooLong
      let some bytes := files.lookup (directory ++ component) | throw .notFound
      if slash then throw .notDirectory
      let some text := String.fromUTF8? bytes | throw .notUtf8
      return text.toList

/-- Makes a file hold a text and nothing else. A slash behind its name asks for
a directory, which is not made. -/
def write (files : Files) (path : String) (text : Source) : Except FileError Files := do
  match ← destination files path with
  | .directory | .entry _ _ true => throw .isDirectory
  | .entry directory component false =>
      if longestComponent < component.utf8ByteSize then throw .nameTooLong
      let name := directory ++ component
      return (name, (String.ofList text).toUTF8) :: files.filter fun f => f.1 ≠ name

end Files

/-- What a run of the command leaves behind. -/
structure Result where
  exitCode : Nat
  stdout : String
  stderr : String
  files : Files

/-- What is said about a file that could not be read or written. -/
def fileLine (path : String) (e : FileError) : String := errorLine (path ++ ": " ++ e.message)

/-- Carries out a plan. -/
def carryOut (request : Request) (files : Files) (p : Plan) : Result :=
  match p.text, request.output with
  | none, _ => ⟨p.exitCode, "", p.reports, files⟩
  | some text, none => ⟨p.exitCode, String.ofList text, p.reports, files⟩
  | some text, some path =>
      match files.write path text with
      | .ok files => ⟨p.exitCode, "", p.reports, files⟩
      | .error e => ⟨2, "", p.reports ++ fileLine path e, files⟩

/-- Runs the command. -/
def run (request : Request) (files : Files) : Result :=
  match files.read request.path with
  | .ok source => carryOut request files (plan request source)
  | .error e => ⟨2, "", fileLine request.path e, files⟩

end SafeSubset.CommandLine
