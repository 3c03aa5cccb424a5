/-! # Binary floating-point numbers

A `FloatFormat` is an IEEE 754 binary interchange format, given by the number of bits
of its significand and of its exponent field. Its values are whole multiples of powers
of two, `mantissa * 2 ^ exponent`, and the special values.

`FloatFormat.round` turns an exact quotient of natural numbers into the nearest value
of the format, a half going to the even neighbour and whatever rounds beyond the largest
finite value going to infinity. All arithmetic is exact.
-/

namespace GoloSyntax

/-- An IEEE 754 binary format. -/
structure FloatFormat where
  /-- Bits of the significand, the leading one included. -/
  precision : Nat
  /-- Bits of the exponent field. -/
  exponentBits : Nat
deriving DecidableEq, Repr, Inhabited

namespace FloatFormat

/-- The 32-bit format. -/
def single : FloatFormat := ⟨24, 8⟩

/-- The 64-bit format. -/
def double : FloatFormat := ⟨53, 11⟩

/-- The exponent field of one. -/
def bias (f : FloatFormat) : Nat := Nat.pow 2 (f.exponentBits - 1) - 1

/-- The exponent of the smallest positive value. -/
def minExponent (f : FloatFormat) : Int := 2 - (f.bias : Int) - f.precision

/-- The exponent of the largest finite value. -/
def maxExponent (f : FloatFormat) : Int := (f.bias : Int) + 1 - f.precision

end FloatFormat

/-- A floating-point value: `mantissa * 2 ^ exponent` with a sign, or a special one. -/
inductive Floating where
  | finite (negative : Bool) (mantissa : Nat) (exponent : Int)
  | infinite (negative : Bool)
  | notANumber
deriving DecidableEq, Repr, Inhabited

/-- `num / den` rounded to the nearest natural number, a half to the even one. -/
def roundHalfEven (num den : Nat) : Nat :=
  let quotient := num / den
  let twice := 2 * (num % den)
  if twice < den then quotient
  else if twice > den then quotient + 1
  else quotient + quotient % 2

/-- Multiply a quotient by `2 ^ e`, given as numerator and denominator. -/
def scaleBinary (num den : Nat) (e : Int) : Nat × Nat :=
  if e < 0 then (num, den * Nat.pow 2 (-e).toNat) else (num * Nat.pow 2 e.toNat, den)

/-- The exponent of the largest power of two that is at most `num / den`, for positive
arguments. -/
def binaryExponent (num den : Nat) : Int :=
  let e : Int := (num.log2 : Int) - den.log2
  let (scaled, unit) := scaleBinary num den (-e)
  if scaled < unit then e - 1 else e

namespace FloatFormat

/-- The exponent of the values among which a positive quotient is rounded: its leading
bit becomes the leading bit of the significand, unless it is too small for that. -/
def roundingExponent (f : FloatFormat) (num den : Nat) : Int :=
  max f.minExponent (binaryExponent num den - f.precision + 1)

/-- The value of the format nearest to `num / den`, with a sign. -/
def round (f : FloatFormat) (negative : Bool) (num den : Nat) : Floating :=
  if num = 0 then .finite negative 0 f.minExponent
  else
    let e := f.roundingExponent num den
    let (scaled, unit) := scaleBinary num den (-e)
    let m := roundHalfEven scaled unit
    let (m, e) := if m = Nat.pow 2 f.precision then (Nat.pow 2 (f.precision - 1), e + 1) else (m, e)
    if e > f.maxExponent then .infinite negative else .finite negative m e

/-- The bits of a value as one natural number: sign, exponent field and fraction. -/
def bits (f : FloatFormat) : Floating → Nat
  | .finite negative m e =>
    let leading := Nat.pow 2 (f.precision - 1)
    let magnitude :=
      if m < leading then m
      else (e - f.minExponent + 1).toNat * leading + (m - leading)
    signBit negative + magnitude
  | .infinite negative => signBit negative + allOnes
  | .notANumber => allOnes + Nat.pow 2 (f.precision - 2)
where
  signBit (negative : Bool) : Nat :=
    if negative then Nat.pow 2 (f.precision - 1 + f.exponentBits) else 0
  /-- The exponent field filled with ones. -/
  allOnes : Nat := (Nat.pow 2 f.exponentBits - 1) * Nat.pow 2 (f.precision - 1)

end FloatFormat

end GoloSyntax
