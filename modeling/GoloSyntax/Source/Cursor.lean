import GoloSyntax.Source.Position

/-! # A reading position inside a source text

A `Cursor` holds the characters not yet read and the position in front of them.
It moves forward only, by single characters (`Cursor.next`) or by a whole run
(`Cursor.takeWhile`, `Cursor.takeWhileTail`), and every move keeps the position
that of the text consumed so far.
-/

namespace GoloSyntax

/-- What is left of a source text, and where it begins. -/
structure Cursor where
  rest : List Char
  position : Position
deriving DecidableEq, Repr, Inhabited

namespace Cursor

/-- The cursor in front of a whole source text. -/
def ofSource (source : String) : Cursor := ⟨source.toList, .start⟩

/-- The next character, which stays unread. -/
def peek? (c : Cursor) : Option Char := c.rest.head?

/-- Whether the unread text begins with `word`. -/
def startsWith (c : Cursor) (word : List Char) : Bool := word.isPrefixOf c.rest

/-- Read `n` characters, or all that are left. -/
def drop (c : Cursor) (n : Nat) : Cursor :=
  ⟨c.rest.drop n, c.position.advance (c.rest.take n)⟩

/-- Read the characters as long as they satisfy `p`. -/
def takeWhile (c : Cursor) (p : Char → Bool) : List Char × Cursor :=
  let taken := c.rest.takeWhile p
  (taken, ⟨c.rest.dropWhile p, c.position.advance taken⟩)

/-- Split a text in front of its first tail that fails `p`; the part read so far is
kept reversed in `taken`. -/
def splitTail (p : List Char → Bool) (taken : List Char) : List Char → List Char × List Char
  | [] => (taken.reverse, [])
  | c :: cs => if p (c :: cs) then splitTail p (c :: taken) cs else (taken.reverse, c :: cs)

/-- Read the characters as long as what is left, the next character included,
satisfies `p`. -/
def takeWhileTail (c : Cursor) (p : List Char → Bool) : List Char × Cursor :=
  let (taken, rest) := splitTail p [] c.rest
  (taken, ⟨rest, c.position.advance taken⟩)

end Cursor

end GoloSyntax
