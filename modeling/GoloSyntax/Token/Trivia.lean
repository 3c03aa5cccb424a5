import GoloSyntax.Token.Fault

/-! # What lies between tokens

Blanks and comments separate tokens and mean nothing. A comment runs from `#` to the
end of its line; the line feed behind it is not part of it, because line feeds are
tokens. `skipTrivia` reads all blanks and comments in front of the next token.
-/

namespace GoloSyntax

/-- A blank, which separates tokens without ending a line. -/
def isBlank (c : Char) : Bool := c == ' ' || c == '\t' || c == '\r'

/-- Whether a comment of so many bytes, the `#` included, is too long. -/
def checkComment (max start : Nat) (c : Cursor) : Except Refusal Cursor :=
  let length := c.position.offset - start
  if length > max then .error ⟨.commentTooLong length max, c⟩ else .ok c

/-- Read blanks and comments; `comment` is the offset at which an open comment began. -/
def skipTriviaFrom (max : Nat) (comment : Option Nat) (p : Position) :
    List Char → Except Refusal Cursor
  | [] =>
    match comment with
    | none => .ok ⟨[], p⟩
    | some start => checkComment max start ⟨[], p⟩
  | c :: cs =>
    match comment with
    | none =>
      if isBlank c then skipTriviaFrom max none (p.after c) cs
      else if c = '#' then skipTriviaFrom max (some p.offset) (p.after c) cs
      else .ok ⟨c :: cs, p⟩
    | some start =>
      if c = '\n' then checkComment max start ⟨c :: cs, p⟩
      else skipTriviaFrom max (some start) (p.after c) cs

/-- Read the blanks and comments in front of the next token, each comment within
`max` bytes. -/
def skipTrivia (max : Nat) (c : Cursor) : Except Refusal Cursor :=
  skipTriviaFrom max none c.position c.rest

end GoloSyntax
