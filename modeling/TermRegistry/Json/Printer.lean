import TermRegistry.Json

/-!
# Writing JSON

Values are written over several lines with two spaces for each level, an empty array or object on
one line. Inside strings the quote, the backslash and the control characters below the space are
escaped; all other characters stand for themselves.
-/

namespace TermRegistry

namespace Json

/-- The hexadecimal digit of a number below 16. -/
def hexDigit (n : Nat) : Char :=
  if n < 10 then Char.ofNat ('0'.toNat + n) else Char.ofNat ('a'.toNat + (n - 10))

/-- A character inside a string. -/
def escapeChar (c : Char) : String :=
  if c = '"' then "\\\""
  else if c = '\\' then "\\\\"
  else if c = '\n' then "\\n"
  else if c = '\r' then "\\r"
  else if c = '\t' then "\\t"
  else if c.toNat = 8 then "\\b"
  else if c.toNat = 12 then "\\f"
  else if c.toNat < 32 then
    String.ofList ['\\', 'u', '0', '0', hexDigit (c.toNat / 16), hexDigit (c.toNat % 16)]
  else c.toString

/-- A string between quotes. -/
def quote (s : String) : String :=
  "\"" ++ String.join (s.toList.map escapeChar) ++ "\""

/-- A line break and the spaces of a level. -/
def newline (level : Nat) : String :=
  "\n" ++ "".pushn ' ' (2 * level)

/-- Lines between two brackets, one level further in. -/
def bracketed (level : Nat) (opening closing : String) (lines : List String) : String :=
  if lines.isEmpty then opening ++ closing
  else
    opening ++ newline (level + 1) ++ ("," ++ newline (level + 1)).intercalate lines ++
      newline level ++ closing

mutual

/-- **The text of a value** on a level. -/
def render (level : Nat) : Json → String
  | null => "null"
  | bool b => if b then "true" else "false"
  | number n => n.render
  | string s => quote s
  | array items => bracketed level "[" "]" (renderAll (level + 1) items)
  | object fields => bracketed level "\x7b" "\x7d" (renderFields (level + 1) fields)

/-- The texts of some values. -/
def renderAll (level : Nat) : List Json → List String
  | [] => []
  | j :: js => render level j :: renderAll level js

/-- The texts of some fields. -/
def renderFields (level : Nat) : List (String × Json) → List String
  | [] => []
  | (name, j) :: fs => (quote name ++ ": " ++ render level j) :: renderFields level fs

end

end Json

end TermRegistry
