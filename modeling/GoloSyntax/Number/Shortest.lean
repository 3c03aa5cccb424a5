import GoloSyntax.Number.Floating

/-! # The shortest decimal of a floating-point value

The decimals that round to a value form an interval around it: it reaches halfway to
the neighbouring values, ends included if the mantissa is even, and on the side towards
zero only half as far if the mantissa is the smallest of its exponent. Among the
decimals in this interval `FloatFormat.shortest` takes one with the fewest digits, and
of several such the nearest to the value; of two equally near ones, the larger.

`FloatFormat.render` writes the result: exponents from −4 to 15 positionally with at
least one digit on either side of the point, the others in scientific notation.
-/

namespace GoloSyntax

/-- How many decimal digits a number has. -/
def digitCount (n : Nat) : Nat := (Nat.repr n).length

/-- The exponent of the largest power of ten that is at most `num / den`, for positive
arguments. -/
def decimalExponent (num den : Nat) : Int :=
  if den ≤ num then (digitCount (num / den) : Int) - 1
  else
    let k := digitCount (den / num) - 1
    if den ≤ num * Nat.pow 10 k then -(k : Int) else -(k : Int) - 1

/-- Positive numbers on a common scale: the interval of decimals that round to a value,
and the value itself. -/
structure RoundingInterval where
  low : Nat
  value : Nat
  high : Nat
  /-- Whether the ends belong to the interval. -/
  closed : Bool
  /-- The common denominator. -/
  unit : Nat
deriving Repr

namespace RoundingInterval

/-- Whether `d * 10 ^ k` lies in the interval, all numbers being multiplied by `unit`
and, if `k` is negative, by `10 ^ -k`. -/
def admits (r : RoundingInterval) (d : Nat) (k : Int) : Bool :=
  let shift := Nat.pow 10 (-k).toNat
  let candidate := d * Nat.pow 10 k.toNat * r.unit
  if r.closed then r.low * shift ≤ candidate && candidate ≤ r.high * shift
  else r.low * shift < candidate && candidate < r.high * shift

/-- The nearest multiple of `10 ^ k` in the interval, as a multiple of `10 ^ k`. -/
def onGrid? (r : RoundingInterval) (k : Int) : Option Nat :=
  let num := r.value * Nat.pow 10 (-k).toNat
  let den := Nat.pow 10 k.toNat * r.unit
  let below := num / den
  let above := if num % den = 0 then below else below + 1
  match r.admits below k, r.admits above k with
  | true, true => some (if 2 * (num % den) < den then below else above)
  | true, false => some below
  | false, true => some above
  | false, false => none

/-- The decimal of the coarsest grid that meets the interval, starting with the grid of
one digit and refining at most `n` times. -/
def search (r : RoundingInterval) : Nat → Int → Nat × Int
  | 0, k => ((r.onGrid? k).getD 0, k)
  | n + 1, k =>
    match r.onGrid? k with
    | some d => (d, k)
    | none => r.search n (k - 1)

end RoundingInterval

namespace FloatFormat

/-- The decimals that round to `m * 2 ^ e`, scaled by four to make the ends whole. -/
def interval (f : FloatFormat) (m : Nat) (e : Int) : RoundingInterval :=
  let below := if m = Nat.pow 2 (f.precision - 1) ∧ e ≠ f.minExponent then 1 else 2
  let scale := Nat.pow 2 e.toNat
  ⟨(4 * m - below) * scale, 4 * m * scale, (4 * m + 2) * scale, m % 2 = 0, 4 * Nat.pow 2 (-e).toNat⟩

/-- A shortest decimal `d * 10 ^ k` that rounds to the positive value `m * 2 ^ e`.
Seventeen digits always suffice for the formats in use. -/
def shortest (f : FloatFormat) (m : Nat) (e : Int) : Nat × Int :=
  let r := f.interval m e
  r.search 17 (decimalExponent r.value r.unit)

end FloatFormat

/-- Drop the zeros at the end of a text. -/
def dropTrailingZeros (digits : List Char) : List Char :=
  (digits.reverse.dropWhile (· = '0')).reverse

/-- Exponents written with a point among the digits; the others use an exponent. -/
def isPositional (exponent : Int) : Bool := -5 < exponent && exponent < 16

/-- Write `0 < d * 10 ^ k`. -/
def renderDecimal (d : Nat) (k : Int) : String :=
  let all := (Nat.repr d).toList
  let digits := dropTrailingZeros all
  let exponent := k + all.length - 1
  if isPositional exponent then
    if exponent < 0 then
      "0." ++ String.ofList (List.replicate (-exponent - 1).toNat '0' ++ digits)
    else
      let width := exponent.toNat + 1
      let padded := digits ++ List.replicate (width - digits.length) '0'
      let fraction := padded.drop width
      String.ofList (padded.take width) ++ "." ++
        (if fraction.isEmpty then "0" else String.ofList fraction)
  else
    let fraction := digits.drop 1
    String.ofList (digits.take 1) ++
      (if fraction.isEmpty then "" else "." ++ String.ofList fraction) ++
      "e" ++ toString exponent

/-- Write a value with the fewest digits that read back as it. -/
def FloatFormat.render (f : FloatFormat) : Floating → String
  | .notANumber => "NaN"
  | .infinite negative => if negative then "-inf" else "inf"
  | .finite negative m e =>
    let sign := if negative then "-" else ""
    if m = 0 then sign ++ "0.0"
    else
      let (d, k) := f.shortest m e
      sign ++ renderDecimal d k

end GoloSyntax
