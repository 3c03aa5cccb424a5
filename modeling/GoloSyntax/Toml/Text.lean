/-! # Blanks, comments and strings of TOML

Readers of parts of a document take the text from some point on and answer what they
read and the text behind it, or nothing if the text does not go on with what they
read. Line ends are a line feed, with or without a carriage return in front of it; no
other control character but the tabulator may stand anywhere.
-/

namespace GoloSyntax.Toml

/-- A blank within a line. -/
def isBlank (c : Char) : Bool := c == ' ' || c == '\t'

/-- A character that may stand in comments and literal strings. -/
def isPlain (c : Char) : Bool := c == '\t' || (' ' ≤ c && c ≠ '\x7f')

def skipBlanks (cs : List Char) : List Char := cs.dropWhile isBlank

/-- The text behind a line end, if there is one here. -/
def newline? : List Char → Option (List Char)
  | '\n' :: cs => some cs
  | '\r' :: '\n' :: cs => some cs
  | _ => none

/-- Skip a comment, if there is one here. -/
def skipComment : List Char → List Char
  | '#' :: cs => cs.dropWhile isPlain
  | cs => cs

/-- Skip blanks, comments and line ends; `n` bounds the number of lines. -/
def skipLines : Nat → List Char → List Char
  | 0, cs => cs
  | n + 1, cs =>
    let cs := skipComment (skipBlanks cs)
    match newline? cs with
    | some cs => skipLines n cs
    | none => cs

/-- Skip everything between two elements of an array. -/
def skipSpace (cs : List Char) : List Char := skipLines (cs.length + 1) cs

/-! ### Strings -/

/-- The value of a digit in base sixteen. -/
def hexValue? (c : Char) : Option Nat :=
  if c.isDigit then some (c.toNat - '0'.toNat)
  else if 'a' ≤ c ∧ c ≤ 'f' then some (c.toNat - 'a'.toNat + 10)
  else if 'A' ≤ c ∧ c ≤ 'F' then some (c.toNat - 'A'.toNat + 10)
  else none

/-- The character whose code point is given by `n` digits. -/
def codePoint? (n : Nat) (cs : List Char) : Option (Char × List Char) :=
  let digits := cs.take n
  if digits.length < n then none
  else
    match digits.mapM hexValue? with
    | none => none
    | some values =>
      let code := values.foldl (fun code d => 16 * code + d) 0
      if code.isValidChar then some (Char.ofNat code, cs.drop n) else none

/-- The character that an escape stands for, behind its backslash. -/
def escape? : List Char → Option (Char × List Char)
  | 'b' :: cs => some ('\x08', cs)
  | 't' :: cs => some ('\t', cs)
  | 'n' :: cs => some ('\n', cs)
  | 'f' :: cs => some ('\x0c', cs)
  | 'r' :: cs => some ('\r', cs)
  | '"' :: cs => some ('"', cs)
  | '\\' :: cs => some ('\\', cs)
  | 'u' :: cs => codePoint? 4 cs
  | 'U' :: cs => codePoint? 8 cs
  | _ => none

/-- Read a basic string behind its opening mark; `n` bounds its length. -/
def basicString : Nat → List Char → List Char → Option (String × List Char)
  | 0, _, _ => none
  | _ + 1, _, [] => none
  | n + 1, content, c :: cs =>
    if c = '"' then some (String.ofList content.reverse, cs)
    else if c = '\\' then
      match escape? cs with
      | some (value, cs) => basicString n (value :: content) cs
      | none => none
    else if isPlain c then basicString n (c :: content) cs
    else none

/-- Read a literal string behind its opening mark. -/
def literalString (cs : List Char) : Option (String × List Char) :=
  let content := cs.takeWhile fun c => isPlain c && c != '\''
  match cs.dropWhile fun c => isPlain c && c != '\'' with
  | '\'' :: cs => some (String.ofList content, cs)
  | _ => none

/-- How many of the next characters are the given quotation mark. -/
def runLength (mark : Char) (cs : List Char) : Nat := (cs.takeWhile (· == mark)).length

/-- The end of a string between tripled marks: up to two more marks in front of the
closing ones belong to the string. -/
def closeTripled (mark : Char) (content cs : List Char) : Option (String × List Char) :=
  let inner := min 2 (runLength mark cs - 3)
  some (String.ofList (content.reverse ++ List.replicate inner mark), cs.drop (inner + 3))

/-- Skip blanks and line ends; `n` bounds the number of lines. -/
def skipBlankLines : Nat → List Char → List Char
  | 0, cs => cs
  | n + 1, cs =>
    match newline? (skipBlanks cs) with
    | some cs => skipBlankLines n cs
    | none => skipBlanks cs

/-- Read a string between tripled marks, behind the opening ones. `n` bounds its length
and `escapes` says whether backslashes are special, as they are between quotation marks.
A backslash at the end of a line takes the line end and all blanks and line ends behind
it away. -/
def tripledString (mark : Char) (escapes : Bool) :
    Nat → List Char → List Char → Option (String × List Char)
  | 0, _, _ => none
  | _ + 1, _, [] => none
  | n + 1, content, c :: cs =>
    if c = mark then
      if runLength mark (c :: cs) ≥ 3 then closeTripled mark content (c :: cs)
      else tripledString mark escapes n (c :: content) cs
    else if c = '\\' && escapes then
      match newline? (skipBlanks cs) with
      | some cs => tripledString mark escapes n content (skipBlankLines (n + 1) cs)
      | none =>
        match escape? cs with
        | some (value, cs) => tripledString mark escapes n (value :: content) cs
        | none => none
    else
      match newline? (c :: cs) with
      | some cs => tripledString mark escapes n ('\n' :: content) cs
      | none => if isPlain c then tripledString mark escapes n (c :: content) cs else none

/-- A string between tripled marks; a line end right behind the opening ones is left
out. -/
def openTripled (mark : Char) (escapes : Bool) (cs : List Char) : Option (String × List Char) :=
  tripledString mark escapes (cs.length + 1) [] ((newline? cs).getD cs)

/-- A string within one line. -/
def lineString? : List Char → Option (String × List Char)
  | '"' :: cs => basicString (cs.length + 1) [] cs
  | '\'' :: cs => literalString cs
  | _ => none

/-- Any string. -/
def string? : List Char → Option (String × List Char)
  | '"' :: '"' :: '"' :: cs => openTripled '"' true cs
  | '\'' :: '\'' :: '\'' :: cs => openTripled '\'' false cs
  | cs => lineString? cs

/-! ### Keys -/

/-- A character of a key without quotation marks. -/
def isBareKey (c : Char) : Bool := c.isAlphanum || c == '_' || c == '-'

/-- One segment of a key. -/
def keySegment? (cs : List Char) : Option (String × List Char) :=
  match cs.takeWhile isBareKey with
  | [] => lineString? cs
  | word => some (String.ofList word, cs.dropWhile isBareKey)

/-- Segments joined by points, with blanks around them; `n` bounds their number. -/
def keyFrom : Nat → List String → List Char → Option (List String × List Char)
  | 0, _, _ => none
  | n + 1, before, cs =>
    match keySegment? (skipBlanks cs) with
    | none => none
    | some (segment, cs) =>
      match skipBlanks cs with
      | '.' :: cs => keyFrom n (segment :: before) cs
      | cs => some ((segment :: before).reverse, cs)

/-- The greatest number of segments of a key. -/
def maxSegments : Nat := 79

/-- A key as its segments, at least one. -/
def key? (cs : List Char) : Option (List String × List Char) := keyFrom maxSegments [] cs

end GoloSyntax.Toml
