import TermRegistry.CommandLine.Setting
import TermRegistry.Text.Decimal

/-!
# Keys

A key says which value of the settings is meant. It is a name, followed by steps into the value:
`.name` into a table and `[index]` into a list. A negative index counts from the end. A text of
any other form is a name as a whole.
-/

namespace TermRegistry

namespace CommandLine

/-- A step from a value into one of its parts. -/
inductive KeyStep
  | field (name : String)
  | item (index : Int)
deriving DecidableEq, Repr, Inhabited

namespace KeyStep

/-- The characters of names: letters and digits of ASCII, `_` and `-`. -/
def isNameChar (c : Char) : Bool := c.isAlphanum || c == '_' || c == '-'

/-- The characters that may stand around an index. -/
def isSpace (c : Char) : Bool := c == ' ' || c == '\t'

/-- Removes spaces at both ends. -/
def trim (cs : List Char) : List Char :=
  ((cs.dropWhile isSpace).reverse.dropWhile isSpace).reverse

/-- The index that some characters denote, if it takes no more than 64 bits. -/
def index? (cs : List Char) : Option Int := do
  let (negative, digits) := match trim cs with
    | '-' :: digits => (true, digits)
    | digits => (false, digits)
  let n ← Text.decimal? (String.ofList digits)
  let index : Int := if negative then -n else n
  if -(Text.wholeLimit : Int) ≤ index ∧ index < Text.wholeLimit then some index else none

/-- The name at the front, and what is behind it. -/
def name? (cs : List Char) : Option (KeyStep × List Char) :=
  if cs.head?.any isNameChar then
    some (.field (String.ofList (cs.takeWhile isNameChar)), cs.dropWhile isNameChar)
  else none

/-- The steps that some characters denote, in at most so many steps. -/
def steps? : Nat → List Char → Option (List KeyStep)
  | _, [] => some []
  | bound + 1, '.' :: cs => do
    let (step, rest) ← name? cs
    return step :: (← steps? bound rest)
  | bound + 1, '[' :: cs => do
    let index ← index? (cs.takeWhile (· != ']'))
    match cs.dropWhile (· != ']') with
    | _ :: rest => return .item index :: (← steps? bound rest)
    | [] => none
  | _, _ => none

/-- **The steps that a key denotes.** -/
def ofKey (key : String) : List KeyStep :=
  let cs := key.toList
  let path? := do
    let (step, rest) ← name? cs
    return step :: (← steps? cs.length rest)
  path?.getD [.field key]

end KeyStep

namespace Setting

/-- Makes room in a list for an index, with nulls at the end it points beyond, and says which item
is meant. -/
def makeRoom (index : Int) (items : List Setting) : List Setting × Nat :=
  if 0 ≤ index then
    (items ++ List.replicate (index.toNat + 1 - items.length) (null none), index.toNat)
  else
    (List.replicate (index.natAbs - items.length) (null none) ++ items,
      items.length - index.natAbs)

/-- Changes the part of a value that some steps lead to. What is no table or list where a step
needs one becomes one. -/
def alterAt : List KeyStep → (Setting → Setting) → Setting → Setting
  | [], change, s => change s
  | .field name :: steps, change, s =>
    table s.tableFile? (alter name (alterAt steps change) s.fields)
  | .item index :: steps, change, s =>
    let (items, n) := makeRoom index s.items
    list s.listFile? (items.modify n (alterAt steps change))

/-- **Merges a value into the settings** at a key. -/
def put (s : Setting) (key : String) (value : Setting) : Setting :=
  alterAt (KeyStep.ofKey key) (fun old ↦ old.merge value) s

end Setting

end CommandLine

end TermRegistry
