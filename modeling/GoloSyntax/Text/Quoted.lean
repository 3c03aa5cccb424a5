import GoloSyntax.Text.Printable

/-! # Quoted text

`quoteText` and `quoteCharacter` write a text or a character on one line between
quotation marks or apostrophes, so that the text can be told from what is written. The
delimiter in use and the backslash get a backslash, four control characters have an
escape of their own, and every other character without a form of its own, or one that
would attach to the character in front of it, is spelled out by its code point.
-/

namespace GoloSyntax

/-- The digits of a number in base sixteen, in lower case. -/
def hexDigits (n : Nat) : String := String.ofList (Nat.toDigits 16 n)

/-- How a character is written between two delimiters. -/
def escapeWithin (delimiter c : Char) : String :=
  if c = '\x00' then "\\0"
  else if c = '\t' then "\\t"
  else if c = '\n' then "\\n"
  else if c = '\r' then "\\r"
  else if c = '\\' ∨ c = delimiter then "\\" ++ c.toString
  else if extendsGrapheme c || isUnprintable c then "\\u\x7b" ++ hexDigits c.toNat ++ "\x7d"
  else c.toString

/-- A text between quotation marks. -/
def quoteText (text : String) : String :=
  "\"" ++ text.foldl (fun out c => out ++ escapeWithin '"' c) "" ++ "\""

/-- A character between apostrophes. -/
def quoteCharacter (c : Char) : String :=
  "'" ++ escapeWithin '\'' c ++ "'"

end GoloSyntax
