import GoloSyntax.Token.Basic
import GoloSyntax.Token.Fault

/-! # String and character literals

A standard string stands between quotation marks on one line and may use escapes; a
multi-line string stands between tripled quotation marks and is taken verbatim, up to
the first three quotation marks in a row. A character literal holds one character or
one escape between apostrophes. The length limit counts the whole literal, delimiters
and escapes as written.
-/

namespace GoloSyntax

/-- The character that a backslash and `c` stand for. -/
def unescape? (c : Char) : Option Char :=
  if c = 'n' then some '\n'
  else if c = 't' then some '\t'
  else if c = 'r' then some '\r'
  else if c = 'b' then some '\x08'
  else if c = 'f' then some '\x0c'
  else if c = '0' then some '\x00'
  else if c = '"' ∨ c = '\'' ∨ c = '\\' then some c
  else none

/-- Read a standard string behind its opening quotation mark; `content` is what has been
read so far, reversed. -/
def scanStandardFrom (content : List Char) (p : Position) : List Char → Scan (List Char)
  | [] => refuse .unterminatedString ⟨[], p⟩
  | '\\' :: [] => refuse .unterminatedEscape ⟨[], p.after '\\'⟩
  | '\\' :: c :: cs =>
    let p' := (p.after '\\').after c
    match unescape? c with
    | some value => scanStandardFrom (value :: content) p' cs
    | none => refuse (.unknownEscape c) ⟨cs, p'⟩
  | c :: cs =>
    if c = '\n' then refuse .newlineInString ⟨c :: cs, p⟩
    else if c = '"' then .ok (content.reverse, ⟨cs, p.after c⟩)
    else scanStandardFrom (c :: content) (p.after c) cs

/-- Three quotation marks in a row, which open and close multi-line strings. -/
def tripleQuote : List Char := ['"', '"', '"']

/-- Read a multi-line string behind its opening marks. -/
def scanMultiLine (c : Cursor) : Scan (List Char) :=
  let (content, c) := c.takeWhileTail fun cs => !tripleQuote.isPrefixOf cs
  if c.rest.isEmpty then refuse .unterminatedMultiLineString c
  else .ok (content, c.drop 3)

/-- A string literal read between two cursors, unless it is longer than `max` bytes. -/
def stringLexeme (max : Nat) (kind : StringKind) (start : Cursor)
    (content : List Char) (stop : Cursor) : Scan Lexeme :=
  let length := stop.position.offset - start.position.offset
  if length > max then refuse (.stringTooLong length max) stop
  else .ok (⟨.string kind, some (String.ofList content)⟩, stop)

/-- Read a string literal of at most `max` bytes, of the kind its opening marks say. -/
def scanString (max : Nat) (c : Cursor) : Except Refusal (Lexeme × Cursor) :=
  if c.startsWith tripleQuote then do
    let (content, c') ← scanMultiLine (c.drop 3)
    stringLexeme max .multiLine c content c'
  else do
    let opened := c.drop 1
    let (content, c') ← scanStandardFrom [] opened.position opened.rest
    stringLexeme max .standard c content c'

/-- Read the character or escape between the apostrophes of a character literal. -/
def scanCharacterValue (c : Cursor) : Scan Char :=
  match c.rest with
  | [] => refuse .unterminatedCharacter c
  | '\\' :: [] => refuse .unterminatedEscape (c.drop 1)
  | '\\' :: escaped :: _ =>
    match unescape? escaped with
    | some value => .ok (value, c.drop 2)
    | none => refuse (.unknownEscape escaped) (c.drop 2)
  | value :: _ =>
    if value = '\n' then refuse .unterminatedCharacter c
    else if value = '\'' then refuse .emptyCharacter c
    else .ok (value, c.drop 1)

/-- Read a character literal. -/
def scanCharacter (c : Cursor) : Except Refusal (Lexeme × Cursor) := do
  let (value, c') ← scanCharacterValue (c.drop 1)
  if c'.peek? = some '\'' then .ok (⟨.character, some value.toString⟩, c'.drop 1)
  else refuse .notOneCharacter c'

end GoloSyntax
