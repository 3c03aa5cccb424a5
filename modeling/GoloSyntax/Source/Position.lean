/-! # Positions and spans in a source text

A `Position` counts what has been read so far: bytes of UTF-8 in `offset`, and
the 1-based `line` and `column`, a column being one Unicode character.
`Position.after` is the only rule by which a position moves, so the position
behind a text is a fold over its characters (`Position.advance`).

A `Span` is half open: its end is the position just behind its last character.
Containment and precedence look at offsets alone.
-/

namespace GoloSyntax

/-- A point between two characters of a source text. -/
structure Position where
  /-- Bytes of UTF-8 in front of the point. -/
  offset : Nat
  line : Nat
  column : Nat
deriving DecidableEq, Repr, Ord

namespace Position

/-- The point in front of the first character. -/
def start : Position := ⟨0, 1, 1⟩

instance : Inhabited Position := ⟨start⟩

/-- The point behind the character `c` read at `p`: a line feed opens a new line,
every other character is one column wide. -/
def after (p : Position) (c : Char) : Position :=
  if c = '\n' then ⟨p.offset + c.utf8Size, p.line + 1, 1⟩
  else ⟨p.offset + c.utf8Size, p.line, p.column + 1⟩

/-- The point behind a whole text read at `p`. -/
def advance (p : Position) (cs : List Char) : Position :=
  cs.foldl after p

@[simp] theorem advance_nil (p : Position) : p.advance [] = p := rfl

@[simp] theorem advance_cons (p : Position) (c : Char) (cs : List Char) :
    p.advance (c :: cs) = (p.after c).advance cs := rfl

theorem advance_append (p : Position) (cs ds : List Char) :
    p.advance (cs ++ ds) = (p.advance cs).advance ds := by
  simp [advance]

/-- `line:column`, the form used in diagnostics. -/
def display (p : Position) : String :=
  toString p.line ++ ":" ++ toString p.column

end Position

/-- A half-open range of a source text. -/
structure Span where
  start : Position
  stop : Position
deriving DecidableEq, Repr, Inhabited

namespace Span

/-- The span at `p` that holds nothing. -/
def empty (p : Position) : Span := ⟨p, p⟩

/-- `t` lies within `s`. -/
def contains (s t : Span) : Bool :=
  s.start.offset ≤ t.start.offset && t.stop.offset ≤ s.stop.offset

/-- `s` ends where `t` starts, or before. -/
def precedes (s t : Span) : Bool :=
  s.stop.offset ≤ t.start.offset

/-- Length in bytes. -/
def length (s : Span) : Nat :=
  s.stop.offset - s.start.offset

def isEmpty (s : Span) : Bool :=
  s.length == 0

/-- `line:column-line:column`. -/
def display (s : Span) : String :=
  s.start.display ++ "-" ++ s.stop.display

@[simp] theorem isEmpty_empty (p : Position) : (empty p).isEmpty = true := by
  simp [isEmpty, length, empty]

end Span

end GoloSyntax
