import GoloSyntax.Grammar.Reading

/-! # Expressions

Operators between operands are read by climbing precedences: the rule for a least
precedence reads an operand and then takes operators that bind at least so tightly,
asking for a tighter one on their right, which makes them left associative. Operands are
chains of calls on a primary expression. Parentheses for grouping leave no trace in the
tree.
-/

namespace GoloSyntax.Grammar

open Reading

/-- Operands and operators of at least a given precedence. -/
def expression (minPrecedence : Nat) : Reading NodeId := do
  let first ← enter .unary
  repeating first fun left => do
    match BinaryOperator.ofToken? (← peek) with
    | none => return .stop left
    | some op =>
      if op.precedence < minPrecedence then return .stop left
      else
        advance
        skipNewlines
        let right ← enter (.expression (op.precedence + 1))
        let node ← openNode (.binary op)
        attach node left
        attach node right
        return .again (← closeNode node)

/-- An operator in front of an operand, or a chain. -/
def unary : Reading NodeId := do
  match UnaryOperator.ofToken? (← peek) with
  | none => enter .chain
  | some op =>
    advance
    let node ← openNode (.unary op)
    child node (.expression UnaryOperator.precedence)
    closeNode node

/-- Make a call node of what has been read so far, and read the arguments. -/
def callOn (receiver : NodeId) (kind : NodeKind) : Reading NodeId := do
  let node ← openNode kind
  attach node receiver
  let _ ← enter (.arguments node)
  closeNode node

/-- A primary expression and the calls made on it: `receiver: method(...)` and
`callee(...)`. -/
def chain : Reading NodeId := do
  let first ← enter .primary
  repeating first fun receiver => do
    match ← peek with
    | .mark .colon =>
      advance
      let name ← identifier .method
      return .again (← callOn receiver (.methodInvocation name))
    | .mark .leftParen => return .again (← callOn receiver .anonymousCall)
    | _ => return .stop receiver

/-- `(a, b, c)` -/
def arguments (call : NodeId) : Reading NodeId := do
  expect (.mark .leftParen)
  skipNewlines
  if ← accept (.mark .rightParen) then return call
  else
    repeatUntil do
      child call (.expression 0)
      skipNewlines
      match ← peek with
      | .mark .comma =>
        advance
        skipNewlines
        return .again ()
      | .mark .rightParen =>
        advance
        return .stop ()
      | _ => reject [.token (.mark .comma), .token (.mark .rightParen)]
    return call

/-- A literal of one token. -/
def literalToken (value : Literal) : Reading NodeId := do
  advance
  leaf (.literal value)

/-- A literal whose value depends on its text. -/
def literalText (token : Lexeme) (value : String → Reading NodeId) : Reading NodeId :=
  match token.text with
  | some text => value text
  | none => refuseLiteral (.literalWithoutText token.kind)

/-- A primary expression that begins with a given token. -/
def primaryOf (token : Lexeme) : Reading NodeId :=
  match token.kind with
  | .number kind =>
    literalText token fun text =>
      match Literal.ofNumber? kind text with
      | some value => literalToken value
      | none => refuseLiteral (.invalidNumber kind text)
  | .string _ => literalText token fun text => literalToken (.string text)
  | .character =>
    literalText token fun text => literalToken (.character (text.toList.head?.getD '\x00'))
  | .keyword .null => literalToken .null
  | .keyword .true_ => literalToken (.boolean true)
  | .keyword .false_ => literalToken (.boolean false)
  | .mark .leftParen => do
    advance
    skipNewlines
    let inner ← enter (.expression 0)
    skipNewlines
    expect (.mark .rightParen)
    return inner
  | .mark .pipe | .mark .arrow => enter .function
  | .mark .caret => do
    advance
    let name ← qualifiedName .function
    leaf (.functionRef name)
  | .keyword .match_ => enter .match_
  | .mark .leftBracket => enter (.collection .tuple)
  | .identifier =>
    match token.text.bind CollectionKind.ofWord? with
    | some type => do
      if (← peekBehind) = .mark .leftBracket then
        advance
        enter (.collection type)
      else enter .named
    | none => enter .named
  | _ => reject [.expression]

/-- A primary expression is told by its first token. -/
def primary : Reading NodeId := do
  primaryOf (← look)

/-- The ending of a qualified name that denotes a class. -/
def classSuffix : List Char := ".class".toList

/-- The class that a name ending in `.class` denotes. -/
def classOf? (name : String) : Option String :=
  let cs := name.toList
  if classSuffix.isSuffixOf cs then some (String.ofList (cs.take (cs.length - classSuffix.length)))
  else none

/-- A name in an expression: called, denoting a class, or referred to. A name of several
segments must be one of the first two. -/
def named : Reading NodeId := do
  let name ← qualifiedName .plain
  if (← peek) = .mark .leftParen then
    let node ← openNode (.functionInvocation name)
    let _ ← enter (.arguments node)
    closeNode node
  else
    match classOf? name with
    | some class_ =>
      intern class_
      leaf (.classLiteral class_)
    | none =>
      if name.toList.contains '.' then reject [.token (.mark .leftParen)]
      else leaf (.reference name)

/-- `[a, b]`, perhaps with a comma behind the last element. -/
def collection (type : CollectionKind) : Reading NodeId := do
  expect (.mark .leftBracket)
  let node ← openNode (.collection type)
  repeatUntil do
    skipNewlines
    if ← accept (.mark .rightBracket) then return .stop ()
    else
      child node (.expression 0)
      skipNewlines
      match ← peek with
      | .mark .comma =>
        advance
        return .again ()
      | .mark .rightBracket =>
        advance
        return .stop ()
      | _ => reject [.token (.mark .comma), .token (.mark .rightBracket)]
  closeNode node

end GoloSyntax.Grammar
