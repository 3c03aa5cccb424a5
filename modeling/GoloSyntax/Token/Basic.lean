import GoloSyntax.Source.Position
import GoloSyntax.Symbol
import GoloSyntax.Token.Kind

/-! # Tokens

A `Lexeme` is what a piece of source text means: its kind and, for identifiers and
literals, its text. A `Token` is a lexeme with its place in the source, the text
replaced by its number in a `SymbolTable`; a `TokenStream` is a list of tokens with
the table that holds their texts.
-/

namespace GoloSyntax

/-- The kind of a token and, for identifiers and literals, its text. -/
structure Lexeme where
  kind : TokenKind
  text : Option String := none
deriving DecidableEq, Repr, Inhabited

/-- A lexeme at its place in the source. -/
structure Token where
  kind : TokenKind
  span : Span
  /-- The text of an identifier or literal. -/
  symbol : Option Symbol := none
deriving DecidableEq, Repr, Inhabited

/-- Tokens in source order, and the texts they refer to. -/
structure TokenStream where
  tokens : Array Token
  symbols : SymbolTable
deriving Inhabited

namespace Token

/-- The token that ends a source at `p`. -/
def endAt (p : Position) : Token := ⟨.endOfInput, .empty p, none⟩

/-- The text of a token, if it has one. -/
def text? (t : Token) (symbols : SymbolTable) : Option String :=
  t.symbol.bind symbols.text?

/-- The token without its place. -/
def lexeme (t : Token) (symbols : SymbolTable) : Lexeme := ⟨t.kind, t.text? symbols⟩

end Token

namespace TokenStream

def size (s : TokenStream) : Nat := s.tokens.size

def isEmpty (s : TokenStream) : Bool := s.tokens.isEmpty

/-- The token at an index; every index past the end stands for the last token. -/
def get (s : TokenStream) (index : Nat) : Token :=
  s.tokens[index]?.getD (s.tokens.back?.getD (.endAt .start))

end TokenStream

end GoloSyntax
