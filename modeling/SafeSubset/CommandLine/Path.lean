/-! Where a path leads. The working directory is known with the files in it, and
so are the directories above it up to the root; there are no others. A file is
named by the shortest path to it, so two paths to one file give one name. -/
namespace SafeSubset.CommandLine

/-- Why a file cannot be read or written. -/
inductive FileError where
  | notFound
  | notDirectory
  | isDirectory
  | nameTooLong
  | notUtf8
  | denied
  deriving DecidableEq, Repr

def FileError.message : FileError → String
  | notFound => "No such file or directory (os error 2)"
  | notDirectory => "Not a directory (os error 20)"
  | isDirectory => "Is a directory (os error 21)"
  | nameTooLong => "File name too long (os error 36)"
  | notUtf8 => "stream did not contain valid UTF-8"
  | denied => "Permission denied (os error 13)"

/-- Files and what they hold, by name. -/
abbrev Files := List (String × ByteArray)

/-- The number of bytes that a component of a path may have. -/
def longestComponent : Nat := 255

/-- The number of bytes that a path may have. -/
def longestPath : Nat := 4095

/-- The start of the names of the files in the working directory. -/
def working : String := ""

/-- The start of the names of the files in the root directory. -/
def root : String := "/"

/-- The directory above a directory, which for the root is the root. -/
def parent (directory : String) : String :=
  if directory = root then root else "../" ++ directory

/-- Whether a component leads to a directory from every directory. -/
def isStep (component : String) : Bool := component = "." || component = ".."

/-- The directory that a component leads to from a directory. -/
def enter (files : Files) (directory component : String) : Except FileError String :=
  if component = "." then .ok directory
  else if component = ".." then .ok (parent directory)
  else if longestComponent < component.utf8ByteSize then .error .nameTooLong
  else if (files.lookup (directory ++ component)).isSome then .error .notDirectory
  else .error .notFound

/-- The components of a path. Several slashes count as one. -/
def components (path : String) : List String :=
  ((path.toList.splitOn '/').map String.ofList).filter (· ≠ "")

/-- What a path leads to. -/
inductive Destination where
  | directory
  /-- An entry of a directory, which has to be a directory itself if a slash
  stands behind it. -/
  | entry (directory component : String) (slash : Bool)
  deriving DecidableEq, Repr

/-- The destination of a path. All components but the last have to lead to
directories. -/
def destination (files : Files) (path : String) : Except FileError Destination :=
  if path = "" then .error .notFound
  else if longestPath < path.utf8ByteSize then .error .nameTooLong
  else
    match (components path).getLast? with
    | none => .ok .directory
    | some last => do
        let start := if path.toList.head? = some '/' then root else working
        let directory ← (components path).dropLast.foldlM (enter files) start
        let slash : Bool := path.toList.getLast? = some '/'
        return if isStep last then .directory else .entry directory last slash

end SafeSubset.CommandLine
