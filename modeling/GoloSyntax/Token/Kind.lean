/-! # Kinds of tokens

The words and marks of the language, and the kinds of token they make up. A
keyword or mark is its spelling, so the tables of spellings (`Keyword.spelling`,
`Mark.spelling`) are the only place where they are written down: reading a word looks
it up there, and diagnostics quote it from there.
-/

namespace GoloSyntax

/-- A reserved word. -/
inductive Keyword where
  | module_ | import_ | function | local_ | augment | struct
  | return_ | if_ | else_ | while_ | for_ | foreach | in_ | throw
  | try_ | catch_ | finally_ | let_ | var | case_ | match_ | when_ | then_ | otherwise
  | break_ | continue_ | null | true_ | false_
  | and | or | not | is | isnt | oftype | orIfNull
deriving DecidableEq, Repr, Inhabited

namespace Keyword

/-- The word itself. -/
def spelling : Keyword → String
  | module_ => "module" | import_ => "import" | function => "function" | local_ => "local"
  | augment => "augment" | struct => "struct" | return_ => "return" | if_ => "if"
  | else_ => "else" | while_ => "while" | for_ => "for" | foreach => "foreach"
  | in_ => "in" | throw => "throw" | try_ => "try" | catch_ => "catch"
  | finally_ => "finally" | let_ => "let" | var => "var" | case_ => "case"
  | match_ => "match" | when_ => "when" | then_ => "then" | otherwise => "otherwise"
  | break_ => "break" | continue_ => "continue" | null => "null" | true_ => "true"
  | false_ => "false" | and => "and" | or => "or" | not => "not"
  | is => "is" | isnt => "isnt" | oftype => "oftype" | orIfNull => "orIfNull"

/-- Every keyword once. -/
def all : List Keyword :=
  [module_, import_, function, local_, augment, struct, return_, if_, else_, while_, for_,
    foreach, in_, throw, try_, catch_, finally_, let_, var, case_, match_, when_, then_,
    otherwise, break_, continue_, null, true_, false_, and, or, not, is, isnt, oftype, orIfNull]

/-- The keyword spelled `word`, if it is one. -/
def ofSpelling? (word : String) : Option Keyword :=
  all.find? fun k => k.spelling == word

theorem mem_all (k : Keyword) : k ∈ all := by
  cases k <;> decide

theorem ofSpelling?_spelling (k : Keyword) : ofSpelling? k.spelling = some k := by
  cases k <;> decide

end Keyword

/-- A punctuation mark or operator sign. -/
inductive Mark where
  | leftParen | rightParen | leftBrace | rightBrace | leftBracket | rightBracket
  | comma | dot | ellipsis | colon | pipe | caret | assign | arrow
  | plus | minus | star | slash | percent
  | less | lessEqual | greater | greaterEqual | equalEqual | notEqual
deriving DecidableEq, Repr, Inhabited

namespace Mark

/-- The mark itself. -/
def spelling : Mark → String
  | leftParen => "(" | rightParen => ")" | leftBrace => "\x7b" | rightBrace => "\x7d"
  | leftBracket => "[" | rightBracket => "]" | comma => "," | dot => "."
  | ellipsis => "..." | colon => ":" | pipe => "|" | caret => "^"
  | assign => "=" | arrow => "->" | plus => "+" | minus => "-"
  | star => "*" | slash => "/" | percent => "%" | less => "<"
  | lessEqual => "<=" | greater => ">" | greaterEqual => ">=" | equalEqual => "=="
  | notEqual => "!="

/-- Every mark once. -/
def all : List Mark :=
  [leftParen, rightParen, leftBrace, rightBrace, leftBracket, rightBracket, comma, dot, ellipsis,
    colon, pipe, caret, assign, arrow, plus, minus, star, slash, percent, less, lessEqual,
    greater, greaterEqual, equalEqual, notEqual]

/-- The mark spelled `cs`, if it is one. -/
def ofSpelling? (cs : List Char) : Option Mark :=
  all.find? fun m => m.spelling.toList == cs

/-- The longest mark that `cs` begins with, and its number of characters. No mark has
more than three. -/
def longest? (cs : List Char) : Option (Mark × Nat) :=
  [3, 2, 1].findSome? fun n => (ofSpelling? (cs.take n)).map fun m => (m, n)

theorem mem_all (m : Mark) : m ∈ all := by
  cases m <;> decide

theorem ofSpelling?_spelling (m : Mark) : ofSpelling? m.spelling.toList = some m := by
  cases m <;> decide

end Mark

/-- The four types of number literal. -/
inductive NumberKind where
  /-- `42` -/
  | integer
  /-- `42_L` -/
  | long
  /-- `1.5_F` -/
  | float
  /-- `1.5`, `1e3` -/
  | double
deriving DecidableEq, Repr, Inhabited

/-- The name of the type in diagnostics. -/
def NumberKind.word : NumberKind → String
  | .integer => "integer"
  | .long => "long"
  | .float => "float"
  | .double => "double"

/-- The two ways to write a string literal. -/
inductive StringKind where
  /-- Between single quotation marks, with escapes. -/
  | standard
  /-- Between tripled quotation marks, verbatim. -/
  | multiLine
deriving DecidableEq, Repr, Inhabited

/-- What a token is. -/
inductive TokenKind where
  | keyword (word : Keyword)
  | identifier
  | number (kind : NumberKind)
  | string (kind : StringKind)
  | character
  | mark (sign : Mark)
  | newline
  | endOfInput
deriving DecidableEq, Repr, Inhabited

/-- The name of a kind in diagnostics: keywords and marks are quoted, the others have
a name of their own. -/
def TokenKind.describe : TokenKind → String
  | .keyword word => "'" ++ word.spelling ++ "'"
  | .identifier => "identifier"
  | .number _ => "number"
  | .string _ => "string"
  | .character => "character"
  | .mark m => "'" ++ m.spelling ++ "'"
  | .newline => "newline"
  | .endOfInput => "end of file"

end GoloSyntax
