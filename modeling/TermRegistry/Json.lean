import TermRegistry.Number
import TermRegistry.Text.Shown

/-!
# JSON values

The values that settings are written in and that results are printed as. The fields of an object
are kept in their order.
-/

namespace TermRegistry

/-- A JSON value. -/
inductive Json
  | null
  | bool (b : Bool)
  | number (n : Number)
  | string (s : String)
  | array (items : List Json)
  | object (fields : List (String × Json))
deriving Repr, Inhabited

namespace Json

/-- What sort of value something is: which one if it is a scalar. -/
inductive Kind
  | null
  | bool (b : Bool)
  | number (n : Number)
  | string (s : String)
  | array
  | object
deriving DecidableEq, Repr, Inhabited

/-- The kind of a value. -/
def kind : Json → Kind
  | null => .null
  | bool b => .bool b
  | number n => .number n
  | string s => .string s
  | array _ => .array
  | object _ => .object

namespace Kind

/-- A truth value as it is written. -/
def boolName (b : Bool) : String := if b then "true" else "false"

/-- A kind as messages about settings name it. -/
def describe : Kind → String
  | null => "unit value"
  | bool b => "boolean `" ++ boolName b ++ "`"
  | number (.whole n) => "integer `" ++ toString n ++ "`"
  | number (.float x) => "floating point `" ++ (Number.float x).renderPointed ++ "`"
  | string s => "string " ++ Text.shown s
  | array => "sequence"
  | object => "map"

/-- A kind as messages about whole files name it: numbers with their size, and floating point
numbers without a point they do not need. -/
def describeSized : Kind → String
  | number (.whole n) =>
    (if n < Text.wholeLimit then "64-bit integer `" else "64-bit unsigned integer `") ++
      toString n ++ "`"
  | number (.float x) => "floating point `" ++ (Number.float x).render ++ "`"
  | k => k.describe

end Kind

end Json

end TermRegistry
