/-!
# Decimal numerals

A numeral is a nonempty run of the digits `0` to `9`; leading zeros are allowed when reading and
never written.
-/

namespace TermRegistry.Text

/-- The characters `0` to `9`. -/
def isDigit (c : Char) : Bool := decide ('0' ≤ c) && decide (c ≤ '9')

/-- The number that a run of digits denotes, in front of which `n` has been read. -/
def digitsValue (n : Nat) (cs : List Char) : Nat :=
  cs.foldl (fun n c ↦ 10 * n + (c.toNat - '0'.toNat)) n

/-- The number that a numeral denotes. -/
def decimal? (s : String) : Option Nat :=
  if s ≠ "" ∧ s.toList.all isDigit then some (digitsValue 0 s.toList) else none

/-- The numbers that count without overflow: those of 64 bits. -/
def countLimit : Nat := Nat.pow 2 64

/-- The whole numbers that take 64 bits with their sign are below this limit, and not below its
negative. -/
def wholeLimit : Nat := Nat.pow 2 63

/-- The numeral of the next number, as long as that is below `countLimit`. -/
def successor? (s : String) : Option String :=
  match decimal? s with
  | some n => if n + 1 < countLimit then some (n + 1).repr else none
  | none => none

end TermRegistry.Text
