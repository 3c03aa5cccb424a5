import GoloSyntax.Source.Cursor

/-! # Lexical faults

Why a source text cannot be cut into tokens. A `LexicalFault` is the cause, a
`LexicalError` the cause at a position, and `LexicalFault.message` is the only place
that words it. While scanning, a fault comes with the cursor at which it was noticed
(`Refusal`), because reading goes on from there.
-/

namespace GoloSyntax

/-- Why scanning stopped. Lengths and sizes are bytes of UTF-8. -/
inductive LexicalFault where
  | inputTooLarge (size max : Nat)
  | tooManyTokens (count max : Nat)
  | commentTooLong (length max : Nat)
  | identifierTooLong (length max : Nat)
  | stringTooLong (length max : Nat)
  | unexpectedCharacter (c : Char)
  /-- An exclamation mark that does not begin `!=`. -/
  | loneExclamationMark
  | exponentWithoutDigits
  | invalidNumberSuffix (suffix : Char)
  | invalidCharacterInNumber
  | unterminatedString
  | newlineInString
  | unterminatedMultiLineString
  | unterminatedCharacter
  | emptyCharacter
  | notOneCharacter
  | unknownEscape (c : Char)
  | unterminatedEscape
deriving DecidableEq, Repr

/-- A bound that was passed, in the wording shared by all of them. -/
def overrun (what : String) (length max : Nat) : String :=
  what ++ ": " ++ toString length ++ " bytes (max: " ++ toString max ++ " bytes)"

/-- The wording of a fault. -/
def LexicalFault.message : LexicalFault → String
  | .inputTooLarge size max => overrun "Input too large" size max
  | .tooManyTokens count max =>
    "Token limit exceeded: " ++ toString count ++ " tokens (max: " ++ toString max ++ ")"
  | .commentTooLong length max => overrun "Comment too long" length max
  | .identifierTooLong length max => overrun "Identifier too long" length max
  | .stringTooLong length max => overrun "String literal too long" length max
  | .unexpectedCharacter c => "Unexpected character: '" ++ c.toString ++ "'"
  | .loneExclamationMark => "Unexpected character: '!' (use 'not')"
  | .exponentWithoutDigits => "Exponent must have digits"
  | .invalidNumberSuffix suffix => "Invalid numeric suffix '_" ++ suffix.toString ++ "'"
  | .invalidCharacterInNumber => "Invalid character in numeric literal"
  | .unterminatedString => "Unterminated string literal"
  | .newlineInString => "Newline in string literal"
  | .unterminatedMultiLineString => "Unterminated multi-line string"
  | .unterminatedCharacter => "Unterminated character literal"
  | .emptyCharacter => "Empty character literal"
  | .notOneCharacter => "Character literal must contain exactly one character"
  | .unknownEscape c => "Unknown escape sequence '\\" ++ c.toString ++ "'"
  | .unterminatedEscape => "Unterminated escape sequence"

/-- A lexical fault and where it was noticed. -/
structure LexicalError where
  fault : LexicalFault
  position : Position
deriving DecidableEq, Repr

namespace LexicalError

def message (e : LexicalError) : String := e.fault.message

def display (e : LexicalError) : String :=
  "Lexical error at " ++ e.position.display ++ ": " ++ e.message

end LexicalError

/-- A fault, and the cursor from which reading would go on. -/
structure Refusal where
  fault : LexicalFault
  cursor : Cursor
deriving Repr

/-- A refusal as an error at the position of its cursor. -/
def Refusal.error (r : Refusal) : LexicalError := ⟨r.fault, r.cursor.position⟩

/-- The outcome of reading from a cursor: a value and the cursor behind what was read,
or a refusal. -/
abbrev Scan (α : Type) : Type := Except Refusal (α × Cursor)

/-- Stop at a cursor. -/
def refuse {α : Type} (fault : LexicalFault) (cursor : Cursor) : Scan α :=
  .error ⟨fault, cursor⟩

end GoloSyntax
