import TermRegistry.Text.Split

/-!
# File paths

A path is a list of names between slashes; empty names and the name `.` stand for nothing. The
extension of a name is what follows its last point, unless that is the first character.
-/

namespace TermRegistry

namespace CommandLine

namespace Path

/-- Whether a path starts at the root. -/
def isAbsolute (path : String) : Bool := path.startsWith "/"

/-- The names of a path that lead somewhere. -/
def names (path : String) : List String :=
  (Text.split '/' path).filter fun name ↦ name != "" && name != "."

/-- The path of some names. -/
def ofNames (isAbsolute : Bool) (names : List String) : String :=
  (if isAbsolute then "/" else "") ++ "/".intercalate names

/-- A path without the names that stand for nothing. -/
def normal (path : String) : String := ofNames (isAbsolute path) (names path)

/-- The last name of a path, if it is the name of a file. -/
def fileName? (path : String) : Option String :=
  (names path).getLast?.filter (· != "..")

/-- The extension of a name. -/
def extension? (name : String) : Option String :=
  match (Text.split '.' name).reverse with
  | last :: first :: others => if first = "" ∧ others = [] then none else some last
  | _ => none

/-- A path to a file whose name is longer by an extension. An extension behind another one is
written at the end of the path, which must not be that of a directory then. -/
def addExtension? (path extension : String) : Option String := do
  let name ← fileName? path
  match extension? name with
  | none => return normal path ++ "." ++ extension
  | some _ => if path.endsWith "/" then none else some (path ++ "." ++ extension)

end Path

end CommandLine

end TermRegistry
