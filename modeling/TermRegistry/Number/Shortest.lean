/-!
# The shortest decimal of a floating point number

A positive floating point number stands for all reals that round to it, which is the interval from
half way to the number below it to half way to the one above. `shortest` selects, by exact
arithmetic on naturals, a decimal of that interval with the fewest digits, and of those the
nearest to the number itself.
-/

namespace TermRegistry

/-- The positive number `m * 2 ^ q`. -/
structure Magnitude where
  m : Nat
  q : Int
  /-- Whether the gap to the number below is half the gap to the one above. -/
  narrow : Bool
deriving DecidableEq, Repr, Inhabited

namespace Magnitude

/-- The magnitude of a finite floating point number. -/
def ofFloat (x : Float) : Magnitude :=
  let bits := x.toBits.toNat
  let exponent : Nat := bits / Nat.pow 2 52 % Nat.pow 2 11
  let fraction := bits % Nat.pow 2 52
  if exponent = 0 then ⟨fraction, -1074, false⟩
  else ⟨Nat.pow 2 52 + fraction, (exponent : Int) - 1075, fraction == 0 && decide (1 < exponent)⟩

/-- The dividend of the number as a fraction of naturals. -/
def num (x : Magnitude) : Nat := x.m * Nat.pow 2 x.q.toNat

/-- The divisor of the number as a fraction of naturals. -/
def den (x : Magnitude) : Nat := Nat.pow 2 (-x.q).toNat

end Magnitude

/-- The decimal `digits * 10 ^ scale`. -/
structure Decimal where
  digits : Nat
  scale : Int
deriving DecidableEq, Repr, Inhabited

namespace Decimal

/-- How many digits the numeral of a natural number has. -/
def width (n : Nat) : Nat := (Nat.toDigits 10 n).length

/-- The least `k` for which a positive fraction is below `10 ^ k`. -/
def order (num den : Nat) : Int :=
  if den ≤ num then width (num / den) else 1 - (width ((den - 1) / num) : Int)

/-- How a decimal compares with `n * 2 ^ q`. -/
def compareWith (d : Decimal) (n : Nat) (q : Int) : Ordering :=
  compare (d.digits * Nat.pow 10 d.scale.toNat * Nat.pow 2 (-q).toNat)
    (n * Nat.pow 2 q.toNat * Nat.pow 10 (-d.scale).toNat)

/-- Whether a decimal rounds to a number. The ends of its interval do if `m` is even. -/
def roundsTo (d : Decimal) (x : Magnitude) : Bool :=
  let low := if x.narrow then 4 * x.m - 1 else 4 * x.m - 2
  let closed := x.m % 2 == 0
  let above := match d.compareWith low (x.q - 2) with
    | .gt => true
    | .eq => closed
    | .lt => false
  let below := match d.compareWith (4 * x.m + 2) (x.q - 2) with
    | .lt => true
    | .eq => closed
    | .gt => false
  above && below

/-- The decimal of a scale that rounds to a number, if there is one: one of the two neighbours of
the number on that scale, the nearer one, and half way between them the upper one. -/
def onScale? (x : Magnitude) (scale : Int) : Option Decimal :=
  let num := x.num * Nat.pow 10 (-scale).toNat
  let den := x.den * Nat.pow 10 scale.toNat
  let lower : Decimal := ⟨num / den, scale⟩
  let upper : Decimal := ⟨num / den + 1, scale⟩
  match lower.roundsTo x, upper.roundsTo x with
  | true, true => if 2 * (num % den) < den then some lower else some upper
  | true, false => some lower
  | false, true => some upper
  | false, false => none

/-- The same decimal without zeros at its end, after at most so many steps. -/
def strip : Nat → Decimal → Decimal
  | 0, d => d
  | steps + 1, d =>
    if d.digits ≠ 0 ∧ d.digits % 10 = 0 then strip steps ⟨d.digits / 10, d.scale + 1⟩ else d

/-- The number itself as a decimal. -/
def exact (x : Magnitude) : Decimal :=
  if 0 ≤ x.q then ⟨x.num, 0⟩ else ⟨x.m * Nat.pow 5 (-x.q).toNat, x.q⟩

/-- **The shortest decimal** that rounds to a positive number. Seventeen digits are always
enough. -/
def shortest (x : Magnitude) : Decimal :=
  let k := order x.num x.den
  let found? := (List.range 17).findSome? fun (n : Nat) ↦ onScale? x (k - ((n : Int) + 1))
  let d := found?.getD (exact x)
  strip (width d.digits) d

/-- A decimal in positional notation, with a point only before digits. -/
def render (d : Decimal) : String :=
  let ds := Nat.toDigits 10 d.digits
  let point : Int := ds.length + d.scale
  let zeros (n : Nat) : List Char := List.replicate n '0'
  String.ofList <|
    if 0 ≤ d.scale then ds ++ zeros d.scale.toNat
    else if 0 < point then ds.take point.toNat ++ '.' :: ds.drop point.toNat
    else '0' :: '.' :: (zeros (-point).toNat ++ ds)

end Decimal

end TermRegistry
