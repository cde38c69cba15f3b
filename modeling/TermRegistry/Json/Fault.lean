/-!
# Faults of JSON texts

Why a text is no JSON value, and where. A fault is located by the number of bytes that are left
behind it, which is what a reader knows without counting; `Failure.place` turns that into a line
and a column.
-/

namespace TermRegistry

namespace Json

/-- Why a text is no JSON value. -/
inductive Fault
  | endInValue
  | endInString
  | endInArray
  | endInObject
  | noColon
  | noArraySeparator
  | noObjectSeparator
  /-- One of the words `null`, `true` and `false` is misspelt. -/
  | misspelt
  | noValue
  | badEscape
  | badNumber
  | hugeNumber
  | controlCharacter
  | keyNoString
  /-- One half of a surrogate pair stands where the other one belongs. -/
  | unpairedHalf
  /-- No second half follows the first one of a surrogate pair. -/
  | missingHalf
  | trailingComma
  | trailingCharacters
  | tooDeep
deriving DecidableEq, Repr, Inhabited

/-- The wording of a fault. -/
def Fault.message : Fault → String
  | endInValue => "EOF while parsing a value"
  | endInString => "EOF while parsing a string"
  | endInArray => "EOF while parsing a list"
  | endInObject => "EOF while parsing an object"
  | noColon => "expected `:`"
  | noArraySeparator => "expected `,` or `]`"
  | noObjectSeparator => "expected `,` or `\x7d`"
  | misspelt => "expected ident"
  | noValue => "expected value"
  | badEscape => "invalid escape"
  | badNumber => "invalid number"
  | hugeNumber => "number out of range"
  | controlCharacter => "control character (\\u0000-\\u001F) found while parsing a string"
  | keyNoString => "key must be a string"
  | unpairedHalf => "lone leading surrogate in hex escape"
  | missingHalf => "unexpected end of hex escape"
  | trailingComma => "trailing comma"
  | trailingCharacters => "trailing characters"
  | tooDeep => "recursion limit exceeded"

/-- The number of bytes that some characters take. -/
def byteCount (cs : List Char) : Nat := cs.foldr (fun c n ↦ c.utf8Size + n) 0

/-- A fault, and the number of bytes left behind the place where it is reported. -/
structure Failure where
  fault : Fault
  left : Nat
deriving DecidableEq, Repr, Inhabited

namespace Failure

/-- A fault reported in front of some characters. -/
def before (fault : Fault) (cs : List Char) : Failure := ⟨fault, byteCount cs⟩

/-- A fault reported behind the first byte of some characters, if there is one. -/
def atHead (fault : Fault) (cs : List Char) : Failure := ⟨fault, byteCount cs - 1⟩

end Failure

/-- A line and a column of a text. Lines count from one; the column is the number of bytes in
front of the place on its line. -/
structure Place where
  line : Nat := 1
  column : Nat := 0
deriving DecidableEq, Repr, Inhabited

/-- The place so many bytes further on. -/
def Place.advance (p : Place) : Nat → List Char → Place
  | bytes, c :: cs =>
    if bytes < c.utf8Size then { p with column := p.column + bytes }
    else
      advance (if c = '\n' then ⟨p.line + 1, 0⟩ else { p with column := p.column + c.utf8Size })
        (bytes - c.utf8Size) cs
  | _, [] => p

/-- The place of a failure in a text. -/
def Failure.place (f : Failure) (text : List Char) : Place :=
  Place.advance {} (byteCount text - f.left) text

end Json

end TermRegistry
