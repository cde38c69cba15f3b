import TermRegistry.Json

/-!
# Values of settings

Settings are a tree of values. Those that were read from a file and are kept as they stood there
know the file; tables, which are merged field by field, lose it.
-/

namespace TermRegistry

namespace CommandLine

/-- A value of the settings. -/
inductive Setting
  | null (file? : Option String)
  | bool (b : Bool)
  | number (n : Number)
  | text (s : String)
  | list (file? : Option String) (items : List Setting)
  | table (file? : Option String) (fields : List (String × Setting))
deriving Inhabited

namespace Setting

/-- The kind of a value. -/
def kind : Setting → Json.Kind
  | null _ => .null
  | bool b => .bool b
  | number n => .number n
  | text s => .string s
  | list _ _ => .array
  | table _ _ => .object

/-- The file that a value knows it was read from. -/
def file? : Setting → Option String
  | null file? | list file? _ | table file? _ => file?
  | _ => none

/-- A table with nothing in it. -/
def empty : Setting := table none []

/-- The fields of a table; other values have none. -/
def fields : Setting → List (String × Setting)
  | table _ fields => fields
  | _ => []

/-- The items of a list; other values have none. -/
def items : Setting → List Setting
  | list _ items => items
  | _ => []

/-- The file that a table was read from. -/
def tableFile? : Setting → Option String
  | table file? _ => file?
  | _ => none

/-- The file that a list was read from. -/
def listFile? : Setting → Option String
  | list file? _ => file?
  | _ => none

/-! ### From JSON -/

mutual

/-- A JSON value as it was read from a file. -/
def ofJson (file : String) : Json → Setting
  | .null => null file
  | .bool b => bool b
  | .number n => number n
  | .string s => text s
  | .array items => list file (ofItems file items)
  | .object fields => table file (ofFields file fields)

/-- The values of some items. -/
def ofItems (file : String) : List Json → List Setting
  | [] => []
  | j :: js => ofJson file j :: ofItems file js

/-- The values of some fields. Of several fields of one name the last one counts. -/
def ofFields (file : String) : List (String × Json) → List (String × Setting)
  | [] => []
  | (name, j) :: fs =>
    let others := ofFields file fs
    if (others.lookup name).isSome then others else (name, ofJson file j) :: others

end

/-! ### Merging -/

/-- Changes the field of a name, which is null if it is missing. -/
def alter (name : String) (change : Setting → Setting) (fields : List (String × Setting)) :
    List (String × Setting) :=
  if (fields.lookup name).isSome then
    fields.map fun f ↦ if f.1 = name then (name, change f.2) else f
  else
    fields ++ [(name, change (null none))]

mutual

/-- **Merges a new value into an old one.** A table is merged into a table field by field; any
other value replaces the old one. -/
def merge : Setting → Setting → Setting
  | old, table _ fields => table old.tableFile? (mergeFields old.fields fields)
  | _, null file? => null file?
  | _, bool b => bool b
  | _, number n => number n
  | _, text s => text s
  | _, list file? items => list file? items

/-- Merges some fields into old ones. -/
def mergeFields : List (String × Setting) → List (String × Setting) → List (String × Setting)
  | old, [] => old
  | old, (name, new) :: fs => mergeFields (alter name (fun s ↦ merge s new) old) fs

end

end Setting

end CommandLine

end TermRegistry
