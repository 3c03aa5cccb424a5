import GoloSyntax.Limits
import GoloSyntax.Token.Numeral
import GoloSyntax.Token.Quoted
import GoloSyntax.Token.Trivia

/-! # Cutting a source text into tokens

`scan` reads one lexeme, blanks and comments in front of it included. A `Lexer` goes
through a source with it: `Lexer.next` gives the next token or an error, and can be
called again after either, because an error leaves the lexer at the place where it was
noticed. The token count is checked first, so a lexer that has given out all its
tokens does not move any more.

`lex` collects the tokens of a whole source up to the end of input, or the first error.
-/

namespace GoloSyntax

/-- Read the lexeme that begins at the cursor. -/
def scanLexeme (limits : Limits) (c : Cursor) : Scan Lexeme :=
  match c.rest with
  | [] => .ok (⟨.endOfInput, none⟩, c)
  | ch :: _ =>
    if ch.isDigit then scanNumber c
    else if isWordStart ch then scanWord limits.maxIdentifierLength c
    else if ch = '"' then scanString limits.maxStringLength c
    else if ch = '\'' then scanCharacter c
    else scanMark c

/-- Skip blanks and comments and read the lexeme behind them, with the position at
which it starts. -/
def scan (limits : Limits) (c : Cursor) : Except Refusal ((Position × Lexeme) × Cursor) := do
  let start ← skipTrivia limits.maxCommentLength c
  let (lexeme, stop) ← scanLexeme limits start
  .ok ((start.position, lexeme), stop)

/-- A lexer part of the way through a source. -/
structure Lexer where
  limits : Limits
  cursor : Cursor
  /-- Tokens given out so far. -/
  count : Nat := 0
  /-- The texts of the tokens given out so far. -/
  symbols : SymbolTable := .empty
deriving Inhabited

namespace Lexer

/-- A lexer in front of a whole source, which must be within the size limit. -/
def ofSource (source : String) (limits : Limits) : Except LexicalError Lexer :=
  if source.utf8ByteSize > limits.maxInputSize then
    .error ⟨.inputTooLarge source.utf8ByteSize limits.maxInputSize, .start⟩
  else
    .ok { limits, cursor := .ofSource source }

/-- Enter the text of a lexeme, if it has one. -/
def internText (symbols : SymbolTable) : Option String → Option Symbol × SymbolTable
  | none => (none, symbols)
  | some text =>
    let (symbol, symbols) := symbols.intern text
    (some symbol, symbols)

/-- The next token or error, and the lexer behind it. -/
def next : Lexer → Except LexicalError Token × Lexer
  | ⟨limits, cursor, count, symbols⟩ =>
    if count ≥ limits.maxTokenCount then
      (.error ⟨.tooManyTokens count limits.maxTokenCount, cursor.position⟩,
        ⟨limits, cursor, count, symbols⟩)
    else
      match scan limits cursor with
      | .error refusal => (.error refusal.error, ⟨limits, refusal.cursor, count, symbols⟩)
      | .ok ((start, lexeme), cursor) =>
        let (symbol, symbols) := internText symbols lexeme.text
        (.ok ⟨lexeme.kind, ⟨start, cursor.position⟩, symbol⟩,
          ⟨limits, cursor, count + 1, symbols⟩)

/-- Collect at most `n` more tokens, up to the end of input. -/
def collect : Nat → Lexer → Array Token → Except LexicalError TokenStream
  | 0, l, tokens => .ok ⟨tokens, l.symbols⟩
  | n + 1, l, tokens =>
    match l.next with
    | (.error e, _) => .error e
    | (.ok token, l) =>
      if token.kind = .endOfInput then .ok ⟨tokens.push token, l.symbols⟩
      else collect n l (tokens.push token)

end Lexer

/-- The tokens of a source. Each token but the last reads at least one character, so
one more token than there are characters is always enough. -/
def lex (source : String) (limits : Limits) : Except LexicalError TokenStream := do
  let lexer ← Lexer.ofSource source limits
  lexer.collect (lexer.cursor.rest.length + 1) #[]

end GoloSyntax
