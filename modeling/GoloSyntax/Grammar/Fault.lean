import GoloSyntax.Token.Fault
import GoloSyntax.Token.Kind

/-! # Why a source text does not parse

A `ParseError` is a cause (`ParseFault`) at the position of the token where it was
noticed. Where another token was wanted the fault lists what would have been accepted
(`Expected`), in the order in which the grammar gives the alternatives. Faults are
worded by `ParseFault.message` alone.
-/

namespace GoloSyntax

/-- What an identifier would name at a place where one is required. -/
inductive NameRole where
  | module_ | imported | function | parameter | augmentedType | struct | member
  | variable_ | loopVariable | exceptionVariable | method
  /-- An identifier for no stated purpose. -/
  | plain
deriving DecidableEq, Repr, Inhabited

/-- How diagnostics ask for the identifier. -/
def NameRole.describe : NameRole → String
  | .module_ => "module name"
  | .imported => "imported name"
  | .function => "function name"
  | .parameter => "parameter name"
  | .augmentedType => "augmented type name"
  | .struct => "struct name"
  | .member => "member name"
  | .variable_ => "variable name"
  | .loopVariable => "loop variable"
  | .exceptionVariable => "exception variable"
  | .method => "method name"
  | .plain => "identifier"

/-- Something the grammar would have accepted at some place. -/
inductive Expected where
  /-- A token of one kind. -/
  | token (kind : TokenKind)
  /-- An identifier. -/
  | name (role : NameRole)
  /-- Any token that begins an expression. -/
  | expression
deriving DecidableEq, Repr, Inhabited

/-- How diagnostics name what was expected. -/
def Expected.describe : Expected → String
  | .token kind => kind.describe
  | .name role => role.describe
  | .expression => "expression"

/-- What went wrong, independent of where and of what was found. -/
inductive ParseErrorKind where
  /-- The text cannot be cut into tokens. -/
  | lexicalGap
  /-- The next token starts none of the alternatives. -/
  | unexpectedToken
  /-- The input ended while a construct was still open. -/
  | unexpectedEndOfInput
  /-- Rules are nested too deeply. -/
  | recursionLimitExceeded
  /-- A literal has no value. -/
  | invalidLiteral
  /-- There are too many nodes for one tree. -/
  | limitExceeded
deriving DecidableEq, Repr

/-- Why parsing stopped. -/
inductive ParseFault where
  /-- The text cannot be cut into tokens. -/
  | lexical (fault : LexicalFault)
  /-- Another token was wanted than `found`, which has the text `text` if it is an
  identifier. -/
  | unexpected (expected : List Expected) (found : TokenKind) (text : Option String)
  /-- A repetition went on without reading anything. -/
  | stalled (found : TokenKind)
  /-- Rules are nested more than `max` deep. -/
  | tooDeep (max : Nat)
  /-- A literal token comes without its text. -/
  | literalWithoutText (kind : TokenKind)
  /-- The text of a number is none of its type, or does not fit it. -/
  | invalidNumber (kind : NumberKind) (text : String)
  /-- The tree has `count` nodes and must not grow. -/
  | tooManyNodes (count max : Nat)
deriving DecidableEq, Repr

namespace ParseFault

/-- How diagnostics name the token found in place of the wanted one. -/
def describeFound : TokenKind → Option String → String
  | .identifier, text => "identifier '" ++ text.getD "" ++ "'"
  | kind, _ => kind.describe

/-- How diagnostics name the alternatives at a place. -/
def describeWanted : List Expected → String
  | [] => "more input"
  | [single] => single.describe
  | many => "one of " ++ ", ".intercalate (many.map Expected.describe)

/-- The wording of a fault. -/
def message : ParseFault → String
  | lexical fault => fault.message
  | unexpected expected found text =>
    "Expected " ++ describeWanted expected ++ ", found " ++ describeFound found text
  | stalled found => "Parser made no progress at " ++ found.describe
  | tooDeep max => "Nesting too deep: " ++ toString max ++ " levels (max " ++ toString max ++ ")"
  | literalWithoutText kind => "Literal " ++ kind.describe ++ " without text"
  | invalidNumber kind text => "Invalid " ++ kind.word ++ " literal '" ++ text ++ "'"
  | tooManyNodes count max =>
    "AST node limit exceeded: " ++ toString count ++ " nodes (max " ++ toString max ++ ")"

/-- The kind of a fault. A wanted token that the end of input stands in for is a kind of its
own. -/
def kind : ParseFault → ParseErrorKind
  | lexical _ => .lexicalGap
  | unexpected _ .endOfInput _ => .unexpectedEndOfInput
  | unexpected .. | stalled _ => .unexpectedToken
  | tooDeep _ => .recursionLimitExceeded
  | literalWithoutText _ | invalidNumber .. => .invalidLiteral
  | tooManyNodes .. => .limitExceeded

/-- The token found, where another one was wanted. -/
def found? : ParseFault → Option String
  | unexpected _ found text => some (describeFound found text)
  | _ => none

/-- What would have been accepted. -/
def expected : ParseFault → List Expected
  | unexpected expected _ _ => expected
  | _ => []

end ParseFault

/-- A fault and where it was noticed. -/
structure ParseError where
  fault : ParseFault
  position : Position
deriving DecidableEq, Repr

namespace ParseError

/-- A lexical error is a parse error at the same place. -/
def ofLexical (e : LexicalError) : ParseError := ⟨.lexical e.fault, e.position⟩

def kind (e : ParseError) : ParseErrorKind := e.fault.kind

def message (e : ParseError) : String := e.fault.message

def display (e : ParseError) : String :=
  "Parse error at " ++ e.position.display ++ ": " ++ e.message

end ParseError

end GoloSyntax
