import GoloSyntax.Grammar.Reading

/-! # Branchings

The statement `case` and the expression `match` share one shape: `when` arms, at least
one of them, and a last arm `otherwise`. They differ in what an arm leads to, a block or
an expression.
-/

namespace GoloSyntax.Grammar

open Reading

/-- A branching behind its keyword, in a node of a given kind. -/
def branching (keyword : Keyword) (kind : NodeKind) (form : BranchForm) : Reading NodeId := do
  expect (.keyword keyword)
  let node ← openNode kind
  let _ ← enter (.arms form node)
  closeNode node

/-- `case { when ... { ... } otherwise { ... } }` -/
def case_ : Reading NodeId := branching .case_ .case_ .blocks

/-- `match { when ... then ... otherwise ... }` -/
def match_ : Reading NodeId := branching .match_ .match_ .values

/-- The arms between braces. -/
def arms (form : BranchForm) (parent : NodeId) : Reading NodeId := do
  expect (.mark .leftBrace)
  repeating false fun seen => do
    skipNewlines
    match ← peek with
    | .keyword .when_ =>
      child parent (.when_ form)
      return .again true
    | .keyword .otherwise =>
      if seen then
        child parent (.otherwise form)
        return .stop ()
      else reject [.token (.keyword .when_)]
    | _ =>
      if seen then reject [.token (.keyword .when_), .token (.keyword .otherwise)]
      else reject [.token (.keyword .when_)]
  skipNewlines
  expect (.mark .rightBrace)
  return parent

/-- `when condition` and where it leads. -/
def when_ (form : BranchForm) : Reading NodeId := do
  expect (.keyword .when_)
  let node ← openNode .when_
  child node (.expression 0)
  match form with
  | .blocks => child node .block
  | .values =>
    skipNewlines
    expect (.keyword .then_)
    skipNewlines
    child node (.expression 0)
  closeNode node

/-- `otherwise` and where it leads. -/
def otherwise (form : BranchForm) : Reading NodeId := do
  expect (.keyword .otherwise)
  let node ← openNode .otherwise
  match form with
  | .blocks => child node .block
  | .values =>
    skipNewlines
    child node (.expression 0)
  closeNode node

end GoloSyntax.Grammar
