import GoloSyntax.Token.Word

/-! # Number literals

A number is a run of digits, then optionally a fraction, an exponent and a type
suffix. Within a run a single `_` may stand between two digits. A point belongs to the
number only if a digit follows it, so `1.foo` is a number, a point and a word; an `e`
always does, and then needs digits. The suffix `_L` asks for a long integer and goes
with neither fraction nor exponent, `_F` asks for a single-precision number and goes
only with one of them.
-/

namespace GoloSyntax

/-- Whether a text begins with a digit. -/
def beginsWithDigit : List Char → Bool
  | c :: _ => c.isDigit
  | [] => false

/-- Whether a run of digits goes on with the first character of this text: a digit, or
an underscore in front of a digit. -/
def continuesDigits : List Char → Bool
  | c :: cs => c.isDigit || (c == '_' && beginsWithDigit cs)
  | [] => false

/-- Read the longest run of digits, single underscores between digits included. -/
def Cursor.digits (c : Cursor) : List Char × Cursor :=
  if beginsWithDigit c.rest then c.takeWhileTail continuesDigits else ([], c)

/-- Read a point and the digits behind it, if there are any. -/
def Cursor.fraction (c : Cursor) : List Char × Cursor :=
  match c.rest with
  | '.' :: cs =>
    if beginsWithDigit cs then
      let (digits, c') := (c.drop 1).digits
      ('.' :: digits, c')
    else ([], c)
  | _ => ([], c)

/-- Read a plus or minus sign, if there is one. -/
def Cursor.sign (c : Cursor) : List Char × Cursor :=
  match c.rest with
  | '+' :: _ => (['+'], c.drop 1)
  | '-' :: _ => (['-'], c.drop 1)
  | _ => ([], c)

/-- Read an exponent, if the text goes on with `e` or `E`. -/
def Cursor.exponent (c : Cursor) : Scan (List Char) :=
  match c.rest with
  | e :: _ =>
    if e = 'e' ∨ e = 'E' then
      let (sign, c₁) := (c.drop 1).sign
      let (digits, c₂) := c₁.digits
      if digits.isEmpty then refuse .exponentWithoutDigits c₁
      else .ok (e :: sign ++ digits, c₂)
    else .ok ([], c)
  | [] => .ok ([], c)

/-- Read the type suffix, if there is one, and settle the type of the literal. -/
def Cursor.numberSuffix (fractional : Bool) (c : Cursor) : Scan (NumberKind × List Char) :=
  let plain := if fractional then NumberKind.double else .integer
  match c.rest with
  | '_' :: 'L' :: _ =>
    if fractional then refuse (.invalidNumberSuffix 'L') c
    else .ok ((.long, ['_', 'L']), c.drop 2)
  | '_' :: 'F' :: _ =>
    if fractional then .ok ((.float, ['_', 'F']), c.drop 2)
    else refuse (.invalidNumberSuffix 'F') c
  | _ => .ok ((plain, []), c)

/-- Read a number, whose text is the literal as written. -/
def scanNumber (c : Cursor) : Except Refusal (Lexeme × Cursor) := do
  let (whole, c) := c.digits
  let (fraction, c) := c.fraction
  let (exponent, c) ← c.exponent
  let fractional := !fraction.isEmpty || !exponent.isEmpty
  let ((kind, suffix), c) ← c.numberSuffix fractional
  if c.peek?.any isWordPart then refuse .invalidCharacterInNumber c
  else
    let text := whole ++ fraction ++ exponent ++ suffix
    .ok (⟨.number kind, some (String.ofList text)⟩, c)

end GoloSyntax
