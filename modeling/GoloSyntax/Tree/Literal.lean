import GoloSyntax.Number.Decimal
import GoloSyntax.Token.Kind

/-! # Literal values

The values that literals of a source text stand for. Integers must fit into the 32 or
64 bits of their type; numbers with a fraction or exponent are rounded to the nearest
value of theirs, which may be infinite.
-/

namespace GoloSyntax

/-- The value of a literal. -/
inductive Literal where
  | null
  | boolean (value : Bool)
  /-- A 32-bit integer. -/
  | integer (value : Int)
  /-- A 64-bit integer. -/
  | long (value : Int)
  /-- A single-precision number. -/
  | float (value : Floating)
  /-- A double-precision number. -/
  | double (value : Floating)
  | character (value : Char)
  | string (text : String)
deriving DecidableEq, Repr, Inhabited

/-- The integer, if it fits into so many bits with a sign. -/
def fitInteger? (bits : Nat) (n : Int) : Option Int :=
  if -Int.pow 2 (bits - 1) ≤ n ∧ n < Int.pow 2 (bits - 1) then some n else none

/-- The digits of a number literal: its text without the letters of the suffix and
without underscores. -/
def numberDigits (text : String) : List Char :=
  let unsuffixed := text.toList.reverse.dropWhile fun c => c == 'L' || c == 'F'
  unsuffixed.reverse.filter (· != '_')

/-- The value of a number literal of a given type, if its text denotes one that fits. -/
def Literal.ofNumber? (kind : NumberKind) (text : String) : Option Literal :=
  let digits := numberDigits text
  match kind with
  | .integer => ((readInteger? digits).bind (fitInteger? 32)).map .integer
  | .long => ((readInteger? digits).bind (fitInteger? 64)).map .long
  | .float => (readFloating? .single digits).map .float
  | .double => (readFloating? .double digits).map .double

end GoloSyntax
