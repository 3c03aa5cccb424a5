import GoloSyntax.Token.Basic
import GoloSyntax.Token.Fault

/-! # Words and marks

A word is a longest run of letters, digits, `_` and `$` that does not begin with a
digit; it is a keyword if it is spelled like one and an identifier otherwise. Outside
words, numbers and quotes, a token is a line feed or the longest mark the text begins
with.
-/

namespace GoloSyntax

/-- A character that words may begin with: an ASCII letter, `_` or `$`. -/
def isWordStart (c : Char) : Bool := c.isAlpha || c == '_' || c == '$'

/-- A character that words may go on with. -/
def isWordPart (c : Char) : Bool := c.isAlphanum || c == '_' || c == '$'

/-- What a word means: keywords carry no text. -/
def Lexeme.ofWord (word : String) : Lexeme :=
  match Keyword.ofSpelling? word with
  | some keyword => ⟨.keyword keyword, none⟩
  | none => ⟨.identifier, some word⟩

/-- Read a word of at most `max` bytes. -/
def scanWord (max : Nat) (c : Cursor) : Scan Lexeme :=
  let (taken, c') := c.takeWhile isWordPart
  let length := c'.position.offset - c.position.offset
  if length > max then refuse (.identifierTooLong length max) c'
  else .ok (.ofWord (String.ofList taken), c')

/-- Read a line feed or the longest mark. A character that begins neither is refused
after it has been read. -/
def scanMark (c : Cursor) : Scan Lexeme :=
  match c.rest with
  | [] => .ok (⟨.endOfInput, none⟩, c)
  | ch :: _ =>
    if ch = '\n' then .ok (⟨.newline, none⟩, c.drop 1)
    else match Mark.longest? c.rest with
      | some (sign, n) => .ok (⟨.mark sign, none⟩, c.drop n)
      | none =>
        if ch = '!' then refuse .loneExclamationMark (c.drop 1)
        else refuse (.unexpectedCharacter ch) (c.drop 1)

end GoloSyntax
