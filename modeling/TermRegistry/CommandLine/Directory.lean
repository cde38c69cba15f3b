import TermRegistry.CommandLine.Path
import TermRegistry.Error

/-!
# Imagined files

A directory is given by its files alone, each by a path; there are just the directories that the
files need. A path is followed name by name. Nothing is known about what lies outside the working
directory, other than files whose paths start at the root.
-/

namespace TermRegistry

namespace CommandLine

/-- A place that a path leads to: by names from the root, by names from the working directory, or
outside of what is known. -/
inductive Location
  | root (names : List String)
  | here (names : List String)
  | outside
deriving DecidableEq, Repr, Inhabited

namespace Location

/-- The place where a path starts. -/
def start (path : String) : Location := if Path.isAbsolute path then root [] else here []

/-- The directory above. -/
def parent : Location → Location
  | root names => root names.dropLast
  | here [] => outside
  | here names => here names.dropLast
  | outside => outside

/-- The place of a name in a directory. -/
def child (name : String) : Location → Location
  | root names => root (names ++ [name])
  | here names => here (names ++ [name])
  | outside => outside

/-- Whether a place is in a directory or in one below it. -/
def isWithin : Location → Location → Bool
  | root names, root above => above != names && above.isPrefixOf names
  | here names, here above => above != names && above.isPrefixOf names
  | _, _ => false

end Location

/-- Files and where they are. Of several files in one place the last one counts. -/
structure Directory where
  files : List (Location × ByteArray)

namespace Directory

/-- The directory of some files by their paths. -/
def ofList (files : List (String × ByteArray)) : Directory :=
  ⟨files.map fun f ↦
    ((if Path.isAbsolute f.1 then Location.root else .here) (Path.names f.1), f.2)⟩

/-- The file in a place. -/
def file? (d : Directory) (l : Location) : Option ByteArray := d.files.reverse.lookup l

/-- Whether there is a directory in a place. -/
def isDirectory (d : Directory) (l : Location) : Bool :=
  [.root [], .here [], .outside].contains l || d.files.any fun f ↦ f.1.isWithin l

/-- How many bytes a name may have. -/
def maxName : Nat := 255

/-- How many bytes a path may have. -/
def maxPath : Nat := 4095

/-- Follows names from a directory to a file. -/
def follow (d : Directory) : Location → List String → Except InputFault ByteArray
  | _, [] => .error .isDirectory
  | l, name :: names =>
    if name = "" ∨ name = "." then d.follow l names
    else if name = ".." then d.follow l.parent names
    else if maxName < name.utf8ByteSize then .error .nameTooLong
    else
      match d.file? (l.child name) with
      | some bytes => if names.isEmpty then .ok bytes else .error .notDirectory
      | none =>
        if l ≠ .outside ∧ d.isDirectory (l.child name) then d.follow (l.child name) names
        else .error .noSuchFile

/-- **Reads the file** that a path leads to. -/
def read (d : Directory) (path : String) : Except InputFault ByteArray :=
  if path.contains (Char.ofNat 0) then .error .zeroInName
  else if path = "" then .error .noSuchFile
  else if maxPath < path.utf8ByteSize then .error .nameTooLong
  else d.follow (.start path) (Text.split '/' path)

end Directory

end CommandLine

end TermRegistry
