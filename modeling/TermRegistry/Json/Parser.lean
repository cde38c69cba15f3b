import TermRegistry.Json
import TermRegistry.Json.Numeral

/-!
# Reading JSON

The reader is strict: there are no comments and no trailing commas, control characters in strings
have to be escaped, and an escaped half of a surrogate pair needs the other half behind it. Arrays
and objects are nested at most `maxDepth` deep. The first fault from the left is the one reported.

Each function takes the characters that are left, and its result carries the proof that fewer are
left afterwards; the mutual recursion is measured by their number.
-/

namespace TermRegistry

namespace Json

/-- The blank characters of JSON. -/
def isSpace (c : Char) : Bool := [' ', '\n', '\r', '\t'].contains c

/-! ### Strings -/

/-- The value of a hexadecimal digit. -/
def hexValue? (c : Char) : Option Nat :=
  if Text.isDigit c then some (c.toNat - '0'.toNat)
  else if 'a' ≤ c ∧ c ≤ 'f' then some (c.toNat - 'a'.toNat + 10)
  else if 'A' ≤ c ∧ c ≤ 'F' then some (c.toNat - 'A'.toNat + 10)
  else none

/-- The number that hexadecimal digits denote. -/
def hexNumber? (cs : List Char) : Option Nat :=
  cs.foldlM (fun n c ↦ (hexValue? c).map (16 * n + ·)) 0

/-- The code unit of an escape: four hexadecimal digits. The four bytes are taken before they are
looked at. -/
def codeUnit (cs : List Char) : Except Failure (Read Nat cs.length) :=
  match cs with
  | a :: b :: c :: d :: rest =>
    match hexNumber? [a, b, c, d] with
    | some n => return ⟨n, rest, by simp only [List.length_cons]; omega⟩
    | none => throw ⟨.badEscape, byteCount (a :: b :: c :: d :: rest) - 4⟩
  | cs =>
    if byteCount cs < 4 then throw (.before .endInString [])
    else throw ⟨.badEscape, byteCount cs - 4⟩

/-- The character that a letter denotes behind a backslash. -/
def escaped? : Char → Option Char
  | '"' => some '"'
  | '\\' => some '\\'
  | '/' => some '/'
  | 'b' => some (Char.ofNat 8)
  | 'f' => some (Char.ofNat 12)
  | 'n' => some '\n'
  | 'r' => some '\r'
  | 't' => some '\t'
  | _ => none

/-- Whether a code unit is the first half of a surrogate pair. -/
def isFirstHalf (unit : Nat) : Bool := decide (0xD800 ≤ unit) && decide (unit < 0xDC00)

/-- Whether a code unit is the second half of a surrogate pair. -/
def isSecondHalf (unit : Nat) : Bool := decide (0xDC00 ≤ unit) && decide (unit < 0xE000)

/-- The character of a surrogate pair. -/
def pairChar (first second : Nat) : Char :=
  Char.ofNat (0x10000 + (first - 0xD800) * 0x400 + (second - 0xDC00))

/-- Takes a character that has to follow the first half of a surrogate pair. -/
def behindHalf (expected : Char) (cs : List Char) : Except Failure (Read Unit cs.length) :=
  match cs with
  | [] => throw (.before .endInString [])
  | c :: cs =>
    if c = expected then return ⟨(), cs, lt_length_cons c cs⟩
    else throw (.atHead .missingHalf (c :: cs))

/-- The character that is escaped by code units, behind the first `u`. -/
def unicodeEscape (cs : List Char) : Except Failure (Read Char cs.length) := do
  let first ← codeUnit cs
  have := first.shorter
  if isSecondHalf first.result then throw (.before .unpairedHalf first.rest)
  else if isFirstHalf first.result then
    let backslash ← behindHalf '\\' first.rest
    let letter ← behindHalf 'u' backslash.rest
    let second ← codeUnit letter.rest
    have := backslash.shorter
    have := letter.shorter
    have := second.shorter
    if isSecondHalf second.result then
      return ⟨pairChar first.result second.result, second.rest, by omega⟩
    else throw (.before .unpairedHalf second.rest)
  else return first.replace (Char.ofNat first.result)

/-- The characters of a string behind its opening quote, up to the closing one. -/
def stringBody (cs : List Char) : Except Failure (Read (List Char) cs.length) :=
  match cs with
  | [] => throw (.before .endInString [])
  | '"' :: cs => return ⟨[], cs, Nat.lt_succ_self _⟩
  | '\\' :: cs =>
    match cs with
    | [] => throw (.before .endInString [])
    | 'u' :: cs => do
      let char ← unicodeEscape cs
      have := char.shorter
      let body ← stringBody char.rest
      have := body.shorter
      return ⟨char.result :: body.result, body.rest, by simp only [List.length_cons]; omega⟩
    | c :: cs =>
      match escaped? c with
      | some char => do
        let body ← stringBody cs
        have := body.shorter
        return ⟨char :: body.result, body.rest, by simp only [List.length_cons]; omega⟩
      | none => throw (.atHead .badEscape (c :: cs))
  | c :: cs => do
    if c.toNat < 32 then throw (.atHead .controlCharacter (c :: cs))
    else
      let body ← stringBody cs
      have := body.shorter
      return ⟨c :: body.result, body.rest, by simp only [List.length_cons]; omega⟩
termination_by cs.length

/-! ### Values -/

/-- The rest of one of the words that denote a value, of which the first letter has been read. -/
def word (j : Json) : (letters cs : List Char) → Except Failure (Read Json (cs.length + 1))
  | [], cs => return ⟨j, cs, Nat.lt_succ_self _⟩
  | _ :: _, [] => throw (.before .endInValue [])
  | letter :: letters, c :: cs => do
    if c = letter then return (← word j letters cs).within (Nat.le_succ _)
    else throw (.atHead .misspelt (c :: cs))

/-- The colon between the name and the value of a field. -/
def colon : (cs : List Char) → Except Failure (Read Unit cs.length)
  | [] => throw (.before .endInObject [])
  | c :: cs => do
    if isSpace c then return (← colon cs).within (Nat.le_succ _)
    else if c = ':' then return ⟨(), cs, Nat.lt_succ_self _⟩
    else throw (.atHead .noColon (c :: cs))

/-- How deep arrays and objects are nested at most. -/
def maxDepth : Nat := 127

mutual

/-- A value, in which arrays and objects are nested at most so deep. -/
def value (depth : Nat) (cs : List Char) : Except Failure (Read Json cs.length) :=
  match cs with
  | [] => throw (.before .endInValue [])
  | c :: cs => do
    if isSpace c then return (← value depth cs).within (Nat.le_succ _)
    else
      match c with
      | 'n' => word .null "ull".toList cs
      | 't' => word (.bool true) "rue".toList cs
      | 'f' => word (.bool false) "alse".toList cs
      | '-' =>
        let n ← numeral true cs
        return (n.replace (.number n.result)).within (Nat.le_succ _)
      | '"' =>
        let body ← stringBody cs
        return (body.replace (.string (String.ofList body.result))).within (Nat.le_succ _)
      | '[' =>
        if depth = 0 then throw (.atHead .tooDeep (c :: cs))
        let items ← items (depth - 1) true cs
        return (items.replace (.array items.result)).within (Nat.le_succ _)
      | '\x7b' =>
        if depth = 0 then throw (.atHead .tooDeep (c :: cs))
        let fields ← fields (depth - 1) true cs
        return (fields.replace (.object fields.result)).within (Nat.le_succ _)
      | c =>
        if Text.isDigit c then
          let n ← numeral false (c :: cs)
          return n.replace (.number n.result)
        else throw (.atHead .noValue (c :: cs))
termination_by (cs.length, 0)

/-- The items of an array that are left, and the bracket that closes it. -/
def items (depth : Nat) (isFirst : Bool) (cs : List Char) :
    Except Failure (Read (List Json) cs.length) :=
  match cs with
  | [] => throw (.before .endInArray [])
  | c :: cs => do
    if isSpace c then return (← items depth isFirst cs).within (Nat.le_succ _)
    else if c = ']' then return ⟨[], cs, Nat.lt_succ_self _⟩
    else if isFirst then item depth (c :: cs)
    else if c = ',' then return (← nextItem depth cs).within (Nat.le_succ _)
    else throw (.atHead .noArraySeparator (c :: cs))
termination_by (cs.length, 2)

/-- An item that has to follow a comma, and the others. -/
def nextItem (depth : Nat) (cs : List Char) : Except Failure (Read (List Json) cs.length) :=
  match cs with
  | [] => throw (.before .endInValue [])
  | c :: cs => do
    if isSpace c then return (← nextItem depth cs).within (Nat.le_succ _)
    else if c = ']' then throw (.atHead .trailingComma (c :: cs))
    else item depth (c :: cs)
termination_by (cs.length, 2)

/-- An item and the others. -/
def item (depth : Nat) (cs : List Char) : Except Failure (Read (List Json) cs.length) := do
  let first ← value depth cs
  have := first.shorter
  let others ← items depth false first.rest
  have := others.shorter
  return ⟨first.result :: others.result, others.rest, by omega⟩
termination_by (cs.length, 1)

/-- The fields of an object that are left, and the brace that closes it. -/
def fields (depth : Nat) (isFirst : Bool) (cs : List Char) :
    Except Failure (Read (List (String × Json)) cs.length) :=
  match cs with
  | [] => throw (.before .endInObject [])
  | c :: cs => do
    if isSpace c then return (← fields depth isFirst cs).within (Nat.le_succ _)
    else if c = '\x7d' then return ⟨[], cs, Nat.lt_succ_self _⟩
    else if isFirst then field depth (c :: cs)
    else if c = ',' then return (← field depth cs).within (Nat.le_succ _)
    else throw (.atHead .noObjectSeparator (c :: cs))
termination_by (cs.length, 2)

/-- A field that has to follow, and the others. -/
def field (depth : Nat) (cs : List Char) :
    Except Failure (Read (List (String × Json)) cs.length) :=
  match cs with
  | [] => throw (.before .endInValue [])
  | c :: cs => do
    if isSpace c then return (← field depth cs).within (Nat.le_succ _)
    else if c = '"' then
      let name ← stringBody cs
      let colon ← colon name.rest
      have := name.shorter
      have := colon.shorter
      let first ← value depth colon.rest
      have := first.shorter
      let others ← fields depth false first.rest
      have := others.shorter
      return ⟨(String.ofList name.result, first.result) :: others.result, others.rest, by
        simp only [List.length_cons]; omega⟩
    else if c = '\x7d' then throw (.atHead .trailingComma (c :: cs))
    else throw (.atHead .keyNoString (c :: cs))
termination_by (cs.length, 1)

end

/-- Checks that nothing but blanks is left. -/
def finish : List Char → Except Failure Unit
  | [] => return
  | c :: cs => if isSpace c then finish cs else throw (.atHead .trailingCharacters (c :: cs))

/-- **The value that a text denotes**, or the first fault in it. -/
def parse (text : List Char) : Except Failure Json := do
  let j ← value maxDepth text
  finish j.rest
  return j.result

end Json

end TermRegistry
