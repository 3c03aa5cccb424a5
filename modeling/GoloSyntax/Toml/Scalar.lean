import GoloSyntax.Number.Decimal
import GoloSyntax.Toml.Text
import GoloSyntax.Toml.Value

/-! # Numbers, dates and truth values of TOML

Such a value is a run of letters, digits and `_ + - . :`, which must be in one of the
forms below as a whole. Only a date may be followed by a second run, its time, behind a
single blank.

Underscores may stand between two digits. Integers are decimal with an optional sign
and no needless zeros, or have a base given by `0x`, `0o` or `0b`; they must fit into 64
bits with a sign. Dates follow the calendar.
-/

namespace GoloSyntax.Toml

/-- A character of numbers, dates and truth values. -/
def isScalarPart (c : Char) : Bool :=
  c.isAlphanum || c == '_' || c == '+' || c == '-' || c == '.' || c == ':'

/-- The digits of a run in which underscores may stand between two digits. -/
def separatedDigits? (isDigit : Char → Bool) : List Char → Option (List Char)
  | [] => none
  | [c] => if isDigit c then some [c] else none
  | c :: '_' :: cs =>
    if isDigit c then (separatedDigits? isDigit cs).map (c :: ·) else none
  | c :: cs => if isDigit c then (separatedDigits? isDigit cs).map (c :: ·) else none

/-- Digits that do not begin with a needless zero. -/
def plainDigits? (cs : List Char) : Option (List Char) :=
  match cs with
  | '0' :: _ :: _ => none
  | _ => separatedDigits? Char.isDigit cs

/-- The number whose digits to a base are the given ones. -/
def valueToBase? (base : Nat) (cs : List Char) : Option Nat :=
  let isDigit (c : Char) : Bool := (hexValue? c).any (· < base)
  (separatedDigits? isDigit cs).map fun digits =>
    digits.foldl (fun n c => base * n + (hexValue? c).getD 0) 0

/-- The integer a run denotes. -/
def integer? (cs : List Char) : Option Int :=
  let value : Option Int :=
    match cs with
    | '0' :: 'x' :: digits => (valueToBase? 16 digits).map Int.ofNat
    | '0' :: 'o' :: digits => (valueToBase? 8 digits).map Int.ofNat
    | '0' :: 'b' :: digits => (valueToBase? 2 digits).map Int.ofNat
    | _ =>
      let (negative, digits) := splitSign cs
      (plainDigits? digits).map fun digits =>
        if negative then -(digitsValue digits : Int) else digitsValue digits
  value.bind fun n => if -Int.pow 2 63 ≤ n ∧ n < Int.pow 2 63 then some n else none

/-- Split a run in front of the first character that satisfies `p`. -/
def splitAt? (p : Char → Bool) (cs : List Char) : List Char × Option (List Char) :=
  match cs.dropWhile (!p ·) with
  | [] => (cs, none)
  | _ :: rest => (cs.takeWhile (!p ·), some rest)

/-- Whether a part of a number is missing or in order. -/
def optionalPart (valid : List Char → Bool) : Option (List Char) → Bool
  | none => true
  | some cs => valid cs

/-- Whether a run is a number with a fraction, an exponent or both. -/
def isReal (cs : List Char) : Bool :=
  let (mantissa, exponent) := splitAt? (fun c => c == 'e' || c == 'E') (splitSign cs).2
  let (whole, fraction) := splitAt? (· == '.') mantissa
  let digits (cs : List Char) : Bool := (separatedDigits? Char.isDigit cs).isSome
  (exponent.isSome || fraction.isSome) && (plainDigits? whole).isSome &&
    optionalPart digits fraction && optionalPart (fun cs => digits (splitSign cs).2) exponent

/-- Whether a run denotes a floating-point number; one beyond the largest finite number
is none. -/
def isFloat (cs : List Char) : Bool :=
  let word := (splitSign cs).2
  if word = "inf".toList ∨ word = "nan".toList then true
  else
    isReal cs &&
      readFloating? .double (cs.filter (· != '_')) != some (.infinite false)

/-! ### Dates and times -/

/-- A number of exactly `n` digits between two bounds, and the text behind it. -/
def fixedNumber? (n low high : Nat) (cs : List Char) : Option (Nat × List Char) :=
  let digits := cs.take n
  let value := digitsValue digits
  if digits.length = n ∧ digits.all Char.isDigit ∧ low ≤ value ∧ value ≤ high then
    some (value, cs.drop n)
  else none

/-- The text behind a given character. -/
def skip? (c : Char) : List Char → Option (List Char)
  | d :: cs => if d = c then some cs else none
  | [] => none

/-- How many days a month has. -/
def daysOf (year month : Nat) : Nat :=
  if month = 2 then
    if year % 4 = 0 ∧ (year % 100 ≠ 0 ∨ year % 400 = 0) then 29 else 28
  else if month = 4 ∨ month = 6 ∨ month = 9 ∨ month = 11 then 30
  else 31

/-- The text behind a date. -/
def skipDate? (cs : List Char) : Option (List Char) := do
  let (year, cs) ← fixedNumber? 4 0 9999 cs
  let (month, cs) ← fixedNumber? 2 1 12 (← skip? '-' cs)
  let (_, cs) ← fixedNumber? 2 1 (daysOf year month) (← skip? '-' cs)
  return cs

/-- The text behind a fraction of a second, if there is one. -/
def skipFraction? : List Char → Option (List Char)
  | '.' :: c :: cs => if c.isDigit then some (cs.dropWhile Char.isDigit) else none
  | '.' :: [] => none
  | cs => some cs

/-- The text behind a time of day. -/
def skipTime? (cs : List Char) : Option (List Char) := do
  let (_, cs) ← fixedNumber? 2 0 23 cs
  let (_, cs) ← fixedNumber? 2 0 59 (← skip? ':' cs)
  let (_, cs) ← fixedNumber? 2 0 60 (← skip? ':' cs)
  skipFraction? cs

/-- Whether a run is an offset from universal time, or nothing. -/
def isOffset (cs : List Char) : Bool :=
  match cs with
  | [] | ['Z'] | ['z'] => true
  | sign :: cs =>
    (sign == '+' || sign == '-') &&
      (do
        let (_, cs) ← fixedNumber? 2 0 23 cs
        let (_, cs) ← fixedNumber? 2 0 59 (← skip? ':' cs)
        return cs.isEmpty).getD false

/-- Whether a run is a date, a time or both. -/
def isDateTime (cs : List Char) : Bool :=
  match skipDate? cs with
  | some [] => true
  | some (c :: cs) =>
    (c == 'T' || c == 't' || c == ' ') && (skipTime? cs).any isOffset
  | none => (skipTime? cs).any List.isEmpty

/-! ### Runs -/

/-- Whether the text goes on with two digits and a colon behind a blank. -/
def beginsWithTime : List Char → Bool
  | ' ' :: a :: b :: ':' :: _ => a.isDigit && b.isDigit
  | _ => false

/-- The run at the beginning of a text, a time behind a date included. -/
def scalarRun (cs : List Char) : List Char × List Char :=
  let run := cs.takeWhile isScalarPart
  let rest := cs.dropWhile isScalarPart
  if skipDate? run = some [] ∧ beginsWithTime rest then
    let time := (rest.drop 1).takeWhile isScalarPart
    (run ++ ' ' :: time, (rest.drop 1).dropWhile isScalarPart)
  else (run, rest)

/-- The value that a run denotes. -/
def scalar? (run : List Char) : Option Value :=
  if run = "true".toList then some (.boolean true)
  else if run = "false".toList then some (.boolean false)
  else if isDateTime run then some (.dateTime (String.ofList run))
  else if isFloat run then some (.float (String.ofList run))
  else (integer? run).map .integer

end GoloSyntax.Toml
