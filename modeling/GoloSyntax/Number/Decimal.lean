import GoloSyntax.Number.Floating

/-! # Reading decimal numbers

Two kinds of decimal text, both ASCII. An integer is an optional sign and at least
one digit. A real number is an optional sign and either digits with an optional point
somewhere among them and an optional exponent, or one of the words `inf`, `infinity`
and `nan` in any case of letters. Neither admits blanks or underscores.

`Decimal` is the exact value of such digits; `Decimal.toFloating` rounds it once, to the
nearest value of a format.
-/

namespace GoloSyntax

/-- The value of a run of digits. -/
def digitsValue (digits : List Char) : Nat :=
  digits.foldl (fun n d => 10 * n + (d.toNat - '0'.toNat)) 0

/-- Split off a leading sign; the first component says whether it is a minus. -/
def splitSign : List Char → Bool × List Char
  | '-' :: cs => (true, cs)
  | '+' :: cs => (false, cs)
  | cs => (false, cs)

/-- The integer a text denotes. -/
def readInteger? (text : List Char) : Option Int :=
  let (negative, digits) := splitSign text
  if digits.isEmpty || !digits.all Char.isDigit then none
  else
    let n := digitsValue digits
    some (if negative then -(n : Int) else n)

/-- The value `digits * 10 ^ exponent`, with a sign. -/
structure Decimal where
  negative : Bool
  digits : Nat
  exponent : Int
deriving DecidableEq, Repr

namespace Decimal

/-- An exponent from which on further digits no longer matter: they are not read. -/
def exponentCap : Nat := 65536

/-- The value of the digits of an exponent, read until it passes the cap. -/
def exponentValue (digits : List Char) : Nat :=
  digits.foldl (fun n d => if n < exponentCap then 10 * n + (d.toNat - '0'.toNat) else n) 0

/-- The exponent behind `e`, which must be all that is left of the text. -/
def readExponent? (text : List Char) : Option Int :=
  let (negative, digits) := splitSign text
  if digits.isEmpty || !digits.all Char.isDigit then none
  else
    let n := exponentValue digits
    some (if negative then -(n : Int) else n)

/-- The digits behind a point, if the text goes on with one, and what follows them. -/
def splitFraction : List Char → List Char × List Char
  | '.' :: cs => (cs.takeWhile Char.isDigit, cs.dropWhile Char.isDigit)
  | cs => ([], cs)

/-- The decimal a text without sign denotes. -/
def readUnsigned? (negative : Bool) (text : List Char) : Option Decimal :=
  let whole := text.takeWhile Char.isDigit
  let (fraction, rest) := splitFraction (text.dropWhile Char.isDigit)
  let digits := whole ++ fraction
  if digits.isEmpty then none
  else
    let value (e : Int) : Decimal := ⟨negative, digitsValue digits, e - fraction.length⟩
    match rest with
    | [] => some (value 0)
    | c :: cs => if c = 'e' ∨ c = 'E' then (readExponent? cs).map value else none

/-- The nearest value of a format. Decimals far beyond the ends of every format are
settled by their size alone, without writing out the power of ten. -/
def toFloating (f : FloatFormat) (d : Decimal) : Floating :=
  let size : Int := d.exponent + (Nat.repr d.digits).length
  if d.digits = 0 ∨ size < -400 then f.round d.negative 0 1
  else if size > 400 then .infinite d.negative
  else if d.exponent < 0 then f.round d.negative d.digits (Nat.pow 10 (-d.exponent).toNat)
  else f.round d.negative (d.digits * Nat.pow 10 d.exponent.toNat) 1

end Decimal

/-- The special value a word names, in any case of letters. -/
def readSpecial? (negative : Bool) (word : List Char) : Option Floating :=
  let lower := word.map Char.toLower
  if lower = "inf".toList ∨ lower = "infinity".toList then some (.infinite negative)
  else if lower = "nan".toList then some .notANumber
  else none

/-- The value of a format that a text denotes. -/
def readFloating? (f : FloatFormat) (text : List Char) : Option Floating :=
  let (negative, unsigned) := splitSign text
  match Decimal.readUnsigned? negative unsigned with
  | some d => some (d.toFloating f)
  | none => readSpecial? negative unsigned

end GoloSyntax
