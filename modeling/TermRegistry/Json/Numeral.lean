import TermRegistry.Json.Fault
import TermRegistry.Number
import TermRegistry.Reading

/-!
# JSON numerals

A numeral is a whole part without needless zeros in front, and perhaps a fraction and a power of
ten. It denotes a whole number if it has neither of them and fits into 64 bits.

Any other numeral is evaluated in floating point from its *significand*: the longest run of its
leading digits that fits into 64 bits. The whole digits behind the significand only count for the
power of ten, and the power is applied by one multiplication or division, so that the last digit
of the result may be off. A number that is too large is a fault.
-/

namespace TermRegistry

namespace Json

/-! ### Evaluation -/

/-- The significands are the naturals below this limit. -/
def significandLimit : Nat := Text.countLimit

/-- Takes digits into a significand as long as it fits, and says which digits are left. -/
def absorb (significand : Nat) : List Char → Nat × List Char
  | [] => (significand, [])
  | c :: cs =>
    let next := Text.digitsValue significand [c]
    if next < significandLimit then absorb next cs else (significand, c :: cs)

/-- The floating point number of a power of ten. -/
def powerOfTen (n : Nat) : Float := Float.ofScientific 1 false n

/-- The largest power of ten that is a floating point number. -/
def largestPower : Nat := 308

/-- A floating point number divided by a power of ten, in steps of the largest one. -/
def shrink (x : Float) (n : Nat) : Float :=
  if n ≤ largestPower then x / powerOfTen n
  else if x == 0.0 then x
  else shrink (x / powerOfTen largestPower) (n - largestPower)
termination_by n
decreasing_by
  simp only [largestPower] at *
  omega

/-- A floating point number times a power of ten, unless that is too large. -/
def enlarge? (x : Float) (n : Nat) : Option Float :=
  if n ≤ largestPower then
    let y := x * powerOfTen n
    if y.isInf then none else some y
  else if x == 0.0 then some x
  else none

/-- The floating point number that a significand and a power of ten denote. -/
def scale? (significand : Nat) (power : Int) : Option Float :=
  let x := significand.toUInt64.toFloat
  if 0 ≤ power then enlarge? x power.toNat else some (shrink x power.natAbs)

/-- The whole number of a significand with a sign. Zero with a minus and numbers below the least
one of 64 bits are floating point numbers. -/
def wholeNumber (negative : Bool) (significand : Nat) : Number :=
  if !negative then .whole significand
  else if 0 < significand ∧ significand ≤ Text.wholeLimit then .whole (-(significand : Int))
  else .float (-significand.toUInt64.toFloat)

/-- A numeral in its parts. -/
structure Numeral where
  negative : Bool
  whole : List Char
  fraction? : Option (List Char)
  power? : Option Int
deriving DecidableEq, Repr, Inhabited

/-- **The number that a numeral denotes**, unless it is too large. -/
def Numeral.value? (n : Numeral) : Option Number :=
  let (significand, left) := absorb 0 n.whole
  if left.isEmpty ∧ n.fraction?.isNone ∧ n.power?.isNone then
    some (wholeNumber n.negative significand)
  else
    let fraction := n.fraction?.getD []
    let (significand, unused) := absorb significand fraction
    let places : Int := (fraction.length : Int) - unused.length
    (scale? significand (left.length - places + n.power?.getD 0)).map fun x ↦
      .float (if n.negative then -x else x)

/-! ### Reading -/

/-- What was read from some characters, and those left behind it. -/
abbrev Read (α : Type) (bound : Nat) := Reading Char α bound

/-- The digits at the front. -/
def digits (cs : List Char) : Read (List Char) (cs.length + 1) :=
  ⟨cs.takeWhile Text.isDigit, cs.dropWhile Text.isDigit,
    Nat.lt_succ_of_le (List.dropWhile_suffix Text.isDigit).length_le⟩

/-- The whole part of a numeral. -/
def wholePart (cs : List Char) : Except Failure (Read (List Char) cs.length) :=
  match cs with
  | [] => throw (.before .endInValue [])
  | '0' :: cs =>
    if cs.head?.any Text.isDigit then throw (.atHead .badNumber cs)
    else return ⟨['0'], cs, Nat.lt_succ_self _⟩
  | c :: cs =>
    if Text.isDigit c then return (digits cs).replace (c :: (digits cs).result)
    else throw (.atHead .badNumber (c :: cs))

/-- The fraction of a numeral, if there is one. -/
def fractionPart? (cs : List Char) :
    Except Failure (Read (Option (List Char)) (cs.length + 1)) :=
  match cs with
  | '.' :: cs =>
    let ds := digits cs
    if ds.result.isEmpty then
      throw (.atHead (if cs.isEmpty then .endInValue else .badNumber) cs)
    else return (ds.replace (some ds.result)).within (Nat.le_succ _)
  | cs => return ⟨none, cs, Nat.lt_succ_self _⟩

/-- The powers of ten that are read to their end are below this limit. -/
def powerLimit : Nat := Nat.pow 2 31

/-- The digits of a power of ten, in front of which `n` has been read. A power beyond the limit is
a fault as soon as it is read if `isFatal` says so; otherwise it stays where the limit is. -/
def powerDigits (isFatal : Bool) (n : Nat) :
    (cs : List Char) → Except Failure (Read Nat (cs.length + 1))
  | [] => return ⟨n, [], Nat.lt_succ_self _⟩
  | c :: cs => do
    if Text.isDigit c then
      let next := Text.digitsValue n [c]
      if next < powerLimit then return (← powerDigits isFatal next cs).within (Nat.le_succ _)
      else if isFatal then throw (.before .hugeNumber cs)
      else return ((digits cs).replace powerLimit).within (Nat.le_succ _)
    else return ⟨n, c :: cs, Nat.lt_succ_self _⟩

/-- A sign at the front, if there is one. -/
def powerSign (cs : List Char) : Read Bool (cs.length + 1) :=
  match cs with
  | '-' :: cs => ⟨true, cs, Nat.lt_succ_of_lt (Nat.lt_succ_self _)⟩
  | '+' :: cs => ⟨false, cs, Nat.lt_succ_of_lt (Nat.lt_succ_self _)⟩
  | cs => ⟨false, cs, Nat.lt_succ_self _⟩

/-- The power of ten of a numeral, if there is one. Only zero takes every power. -/
def powerPart? (isZero : Bool) (cs : List Char) :
    Except Failure (Read (Option Int) (cs.length + 1)) :=
  match cs with
  | c :: cs => do
    if c = 'e' ∨ c = 'E' then
      let sign := powerSign cs
      if sign.rest.head?.any Text.isDigit then
        let n ← powerDigits (!isZero && !sign.result) 0 sign.rest
        return ⟨some (if sign.result then -(n.result : Int) else n.result), n.rest,
          Nat.lt_of_lt_of_le n.shorter (Nat.le_succ_of_le sign.shorter)⟩
      else throw (.atHead (if sign.rest.isEmpty then .endInValue else .badNumber) sign.rest)
    else return ⟨none, c :: cs, Nat.lt_succ_self _⟩
  | [] => return ⟨none, [], Nat.lt_succ_self _⟩

/-- **Reads a number** behind its sign. -/
def numeral (negative : Bool) (cs : List Char) : Except Failure (Read Number cs.length) := do
  let whole ← wholePart cs
  have := whole.shorter
  let fraction ← fractionPart? whole.rest
  have := fraction.shorter
  let isZero := (whole.result ++ fraction.result.getD []).all (· == '0')
  let power ← powerPart? isZero fraction.rest
  have := power.shorter
  match Numeral.value? ⟨negative, whole.result, fraction.result, power.result⟩ with
  | some n => return ⟨n, power.rest, by omega⟩
  | none => throw (.before .hugeNumber power.rest)

end Json

end TermRegistry
