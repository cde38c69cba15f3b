import TermRegistry.Number.Shortest
import TermRegistry.Text.Decimal

/-!
# Numbers

The numbers of settings are whole numbers of 64 bits, with or without a sign, and floating point
numbers. They are written in positional notation with as few digits as tell them apart.
-/

namespace TermRegistry

/-- A number. -/
inductive Number
  | whole (n : Int)
  | float (x : Float)
deriving DecidableEq, Repr, Inhabited

namespace Number

/-! ### Writing numbers -/

/-- The sign of a floating point number, which zero has as well. -/
def sign (x : Float) : String := if x.toBits.toNat < Text.wholeLimit then "" else "-"

/-- A floating point number in positional notation. -/
def renderFloat (x : Float) : String :=
  if x.isNaN then "NaN"
  else if x.isInf then sign x ++ "inf"
  else
    let magnitude := Magnitude.ofFloat x
    sign x ++ if magnitude.m = 0 then "0" else (Decimal.shortest magnitude).render

/-- **The numeral of a number.** -/
def render : Number → String
  | whole n => toString n
  | float x => renderFloat x

/-- The numeral of a number that shows by a point whether the number is whole. -/
def renderPointed : Number → String
  | whole n => toString n
  | float x =>
    let numeral := renderFloat x
    if x.isFinite && !numeral.contains '.' then numeral ++ ".0" else numeral

/-! ### Reading numbers -/

/-- The infinite floating point number. -/
def infinity : Float := 1.0 / 0.0

/-- The floating point number nearest to `digits * 10 ^ scale`. -/
def nearest (d : Decimal) : Float :=
  let magnitude : Int := Decimal.width d.digits + d.scale
  if d.digits = 0 ∨ magnitude < -330 then 0.0
  else if 320 < magnitude then infinity
  else Float.ofScientific d.digits (decide (d.scale < 0)) d.scale.natAbs

/-- Splits off a sign: whether it is a minus, and what is behind it. -/
def splitSign : List Char → Bool × List Char
  | '-' :: cs => (true, cs)
  | '+' :: cs => (false, cs)
  | cs => (false, cs)

/-- The whole number that some characters denote, with or without a sign, if it takes no more than
64 bits. -/
def whole? (cs : List Char) : Option Int := do
  let (negative, digits) := splitSign cs
  let n ← Text.decimal? (String.ofList digits)
  let value : Int := if negative then -n else n
  if -(Text.wholeLimit : Int) ≤ value ∧ value < Text.wholeLimit then some value else none

/-- The power of ten that some characters denote: none of them stand for zero. -/
def power? : List Char → Option Int
  | [] => some 0
  | c :: cs => do
    if c ≠ 'e' ∧ c ≠ 'E' then none
    else
      let (negative, digits) := splitSign cs
      let n ← Text.decimal? (String.ofList digits)
      return if negative then -n else n

/-- The decimal that some characters denote: digits with at most one point among them, and a power
of ten. -/
def decimal? (cs : List Char) : Option Decimal := do
  let whole := cs.takeWhile Text.isDigit
  let rest := cs.dropWhile Text.isDigit
  let (fraction, rest) := match rest with
    | '.' :: rest => (rest.takeWhile Text.isDigit, rest.dropWhile Text.isDigit)
    | rest => ([], rest)
  if whole.isEmpty && fraction.isEmpty then none
  else
    let power ← power? rest
    return ⟨Text.digitsValue 0 (whole ++ fraction), power - fraction.length⟩

/-- The floating point number that some characters without a sign denote: a decimal, or one of the
names `inf`, `infinity` and `nan` in any case. -/
def unsigned? (cs : List Char) : Option Float :=
  match (String.ofList cs).toLower with
  | "inf" | "infinity" => some infinity
  | "nan" => some (0.0 / 0.0)
  | _ => (decimal? cs).map nearest

/-- The floating point number that some characters denote, with or without a sign. -/
def float? (cs : List Char) : Option Float := do
  let (negative, cs) := splitSign cs
  let x ← unsigned? cs
  return if negative then -x else x

/-- **The number that a text denotes**: a whole one if it can be. -/
def ofText? (s : String) : Option Number :=
  match whole? s.toList with
  | some n => some (whole n)
  | none => (float? s.toList).map float

end Number

end TermRegistry
