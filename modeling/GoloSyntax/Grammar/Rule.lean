import GoloSyntax.Tree.Basic

/-! # The rules of the grammar

One `Rule` for each construct that counts as a level of nesting. Most rules read a
construct and answer the node made for it. The rules for the arms of a branching and
for call arguments instead fill a node that their caller has made, and answer that one.
-/

namespace GoloSyntax

/-- The two kinds of branching: `case`, whose branches are blocks, and `match`, whose
branches are expressions. -/
inductive BranchForm where
  | blocks
  | values
deriving DecidableEq, Repr, Inhabited

/-- A rule of the grammar. -/
inductive Rule where
  | compilationUnit
  | moduleDeclaration
  | importDeclaration
  | functionDeclaration
  /-- Parameters and body, of a declaration or on their own. -/
  | function
  | augmentation
  | struct
  | block
  | statement
  | letOrVar
  | assignment
  | return_
  | throw
  | if_
  | while_
  | for_
  | forEach
  | try_
  | case_
  | match_
  /-- The arms between braces, attached to `parent`. -/
  | arms (form : BranchForm) (parent : NodeId)
  | when_ (form : BranchForm)
  | otherwise (form : BranchForm)
  /-- Operands joined by operators of at least a given precedence. -/
  | expression (minPrecedence : Nat)
  | unary
  /-- A primary expression with the calls made on it. -/
  | chain
  /-- Call arguments between parentheses, attached to `call`. -/
  | arguments (call : NodeId)
  | primary
  /-- An expression that begins with a name. -/
  | named
  /-- The elements of a collection between brackets. -/
  | collection (type : CollectionKind)
deriving DecidableEq, Repr, Inhabited

/-- Whether the construct of a rule begins where that of its caller does, rather than at
the next token: a collection begins with the word in front of its bracket. -/
def Rule.inheritsStart : Rule → Bool
  | .collection _ => true
  | _ => false

end GoloSyntax
