import GoloSyntax.Grammar.Branching
import GoloSyntax.Grammar.Declaration
import GoloSyntax.Grammar.Expression
import GoloSyntax.Grammar.Statement
import GoloSyntax.Token.Lexer

/-! # Parsing

`Rule.reading` is the grammar: the reading program of every rule. `Rule.enter` carries
a rule out with a number of levels left, and gives up when there is none; the grammar
may be as recursive as it likes, because every call goes one level deeper.

`parse` reads a token stream as one compilation unit. It stops at the first end of
input, and supplies one at the end of the last token if there is none. `parseSource`
cuts a source text into tokens first. Either gives a tree only if everything was read.

Streams are meant to have the texts that their tokens refer to, as those of `lex` do. A
token with a symbol that is not in the table is read as one without a text.
-/

namespace GoloSyntax

/-- The grammar. -/
def Rule.reading : Rule → Reading NodeId
  | .compilationUnit => Grammar.compilationUnit
  | .moduleDeclaration => Grammar.moduleDeclaration
  | .importDeclaration => Grammar.importDeclaration
  | .functionDeclaration => Grammar.functionDeclaration
  | .function => Grammar.function
  | .augmentation => Grammar.augmentation
  | .struct => Grammar.struct
  | .block => Grammar.block
  | .statement => Grammar.statement
  | .letOrVar => Grammar.letOrVar
  | .assignment => Grammar.assignment
  | .return_ => Grammar.return_
  | .throw => Grammar.throw
  | .if_ => Grammar.if_
  | .while_ => Grammar.while_
  | .for_ => Grammar.for_
  | .forEach => Grammar.forEach
  | .try_ => Grammar.try_
  | .case_ => Grammar.case_
  | .match_ => Grammar.match_
  | .arms form parent => Grammar.arms form parent
  | .when_ form => Grammar.when_ form
  | .otherwise form => Grammar.otherwise form
  | .expression minPrecedence => Grammar.expression minPrecedence
  | .unary => Grammar.unary
  | .chain => Grammar.chain
  | .arguments call => Grammar.arguments call
  | .primary => Grammar.primary
  | .named => Grammar.named
  | .collection type => Grammar.collection type

/-- Carry out a rule called from a frame that starts at `start`, with so many levels of
nesting left. -/
def Rule.enter (c : Reading.Context) :
    Nat → Rule → Position → Reading.State → Except ParseError (NodeId × Reading.State)
  | 0, _, _, s => s.fail c (.tooDeep c.maxDepth)
  | levels + 1, rule, start, s =>
    let start := if rule.inheritsStart then start else (s.current c).span.start
    Reading.run c (Rule.enter c levels) rule.reading start s

/-- The tokens in front of the first end of input, and that end; a stream without one
ends behind its last token. -/
def splitAtEnd (tokens : Array Token) : List Token × Token :=
  let all := tokens.toList
  let stop := (tokens.back?.map (·.span.stop)).getD .start
  (all.takeWhile (·.kind != .endOfInput),
    (all.find? (·.kind == .endOfInput)).getD (.endAt stop))

/-- Read a token stream as one compilation unit. -/
def parse (stream : TokenStream) (limits : Limits) : Except ParseError Tree :=
  let (rest, endToken) := splitAtEnd stream.tokens
  let c : Reading.Context :=
    ⟨endToken, limits.maxNestingDepth, limits.maxTreeNodes, stream.size⟩
  match Rule.enter c limits.maxNestingDepth .compilationUnit .start
      ⟨rest, .start, .ofSymbols stream.symbols⟩ with
  | .error e => .error e
  | .ok (root, s) => .ok (s.tree.setSpan root ⟨.start, endToken.span.stop⟩)

/-- Read a source text as one compilation unit. -/
def parseSource (source : String) (limits : Limits) : Except ParseError Tree :=
  match lex source limits with
  | .error e => .error (.ofLexical e)
  | .ok stream => parse stream limits

end GoloSyntax
