import GoloSyntax.Grammar.Reading

/-! # Statements

A block holds statements, one to a line. A statement is told by its first token, an
assignment by its second one; every other statement is an expression.
-/

namespace GoloSyntax.Grammar

open Reading

/-- `{ ... }` -/
def block : Reading NodeId := do
  expect (.mark .leftBrace)
  let block ← openNode .block
  repeatUntil do
    skipNewlines
    match ← peek with
    | .mark .rightBrace =>
      advance
      return .stop ()
    | .endOfInput => reject [.token (.mark .rightBrace)]
    | _ =>
      child block .statement
      terminator true
      return .again ()
  closeNode block

/-- Any statement. -/
def statement : Reading NodeId := do
  match ← peek with
  | .keyword .let_ | .keyword .var => enter .letOrVar
  | .identifier =>
    if (← peekBehind) = .mark .assign then enter .assignment else enter (.expression 0)
  | .keyword .return_ => enter .return_
  | .keyword .throw => enter .throw
  | .keyword .if_ => enter .if_
  | .keyword .while_ => enter .while_
  | .keyword .for_ => enter .for_
  | .keyword .foreach => enter .forEach
  | .keyword .try_ => enter .try_
  | .keyword .case_ => enter .case_
  | .keyword .break_ =>
    advance
    leaf .break_
  | .keyword .continue_ =>
    advance
    leaf .continue_
  | _ => enter (.expression 0)

/-- The name, the equals sign and the value that variables are declared or set with, in
a node of a given kind. -/
def binding (kind : String → NodeKind) : Reading NodeId := do
  let name ← identifier .variable_
  expect (.mark .assign)
  skipNewlines
  let node ← openNode (kind name)
  child node (.expression 0)
  closeNode node

/-- `let x = ...` or `var x = ...` -/
def letOrVar : Reading NodeId := do
  match ← peek with
  | .keyword .let_ =>
    advance
    binding (.letOrVar · false)
  | .keyword .var =>
    advance
    binding (.letOrVar · true)
  | _ => reject [.token (.keyword .let_), .token (.keyword .var)]

/-- `x = ...` -/
def assignment : Reading NodeId := binding .assignment

/-- `return`, with a value if one starts on the same line. -/
def return_ : Reading NodeId := do
  expect (.keyword .return_)
  let node ← openNode .return_
  match ← peek with
  | .newline | .mark .rightBrace | .endOfInput => closeNode node
  | _ =>
    child node (.expression 0)
    closeNode node

/-- `throw ...` -/
def throw : Reading NodeId := do
  expect (.keyword .throw)
  let node ← openNode .throw
  child node (.expression 0)
  closeNode node

/-- `if ... { ... }`, perhaps with an `else` behind the brace. -/
def if_ : Reading NodeId := do
  expect (.keyword .if_)
  let node ← openNode .if_
  child node (.expression 0)
  child node .block
  if ← accept (.keyword .else_) then
    match ← peek with
    | .keyword .if_ => child node .if_
    | .mark .leftBrace => child node .block
    | _ => reject [.token (.keyword .if_), .token (.mark .leftBrace)]
  closeNode node

/-- `while ... { ... }` -/
def while_ : Reading NodeId := do
  expect (.keyword .while_)
  let node ← openNode .while_
  child node (.expression 0)
  child node .block
  closeNode node

/-- A comma between the clauses of a loop, with line feeds around it. -/
def clauseSeparator : Reading Unit := do
  skipNewlines
  expect (.mark .comma)
  skipNewlines

/-- `for (var i = 0, i < n, i = i + 1) { ... }` -/
def for_ : Reading NodeId := do
  expect (.keyword .for_)
  expect (.mark .leftParen)
  let node ← openNode .for_
  skipNewlines
  child node .letOrVar
  clauseSeparator
  child node (.expression 0)
  clauseSeparator
  child node .statement
  skipNewlines
  expect (.mark .rightParen)
  child node .block
  closeNode node

/-- `foreach x in xs { ... }`, with or without parentheses around the header. -/
def forEach : Reading NodeId := do
  expect (.keyword .foreach)
  let parenthesized ← accept (.mark .leftParen)
  let name ← identifier .loopVariable
  expect (.keyword .in_)
  let node ← openNode (.forEach name)
  child node (.expression 0)
  if parenthesized then expect (.mark .rightParen)
  child node .block
  closeNode node

/-- `catch (e) { ... }` -/
def catchClause : Reading NodeId := do
  expect (.keyword .catch_)
  expect (.mark .leftParen)
  let name ← identifier .exceptionVariable
  expect (.mark .rightParen)
  let node ← openNode (.catch_ name)
  child node .block
  closeNode node

/-- `finally { ... }` -/
def finallyClause : Reading NodeId := do
  expect (.keyword .finally_)
  let node ← openNode .finally_
  child node .block
  closeNode node

/-- Read a clause if its keyword comes next, and make it the last child of a node. -/
def optionalClause (node : NodeId) (keyword : Keyword) (clause : Reading NodeId) :
    Reading Bool := do
  if (← peek) = .keyword keyword then
    let id ← framed clause
    attach node id
    return true
  else return false

/-- `try { ... }` with a `catch`, a `finally` or both. -/
def try_ : Reading NodeId := do
  expect (.keyword .try_)
  let node ← openNode .try_
  child node .block
  let caught ← optionalClause node .catch_ catchClause
  let cleaned ← optionalClause node .finally_ finallyClause
  if caught || cleaned then closeNode node
  else reject [.token (.keyword .catch_), .token (.keyword .finally_)]

end GoloSyntax.Grammar
