import GoloSyntax.Token.Kind

/-! # Operators

The operators of expressions, their spellings and how tightly they bind. Operators
between operands have seven levels of precedence and are all left associative;
operators in front of an operand bind tighter than all of them.
-/

namespace GoloSyntax

/-- An operator between two operands. -/
inductive BinaryOperator where
  | orIfNull | or | and
  | equals | notEquals | is | isNot | ofType
  | less | lessOrEquals | more | moreOrEquals
  | plus | minus | times | divide | modulo
deriving DecidableEq, Repr, Inhabited

namespace BinaryOperator

/-- How the operator is written. -/
def spelling : BinaryOperator → String
  | orIfNull => "orIfNull" | or => "or" | and => "and"
  | equals => "==" | notEquals => "!=" | is => "is" | isNot => "isnt" | ofType => "oftype"
  | less => "<" | lessOrEquals => "<=" | more => ">" | moreOrEquals => ">="
  | plus => "+" | minus => "-" | times => "*" | divide => "/" | modulo => "%"

/-- How tightly the operator binds, loosest first. -/
def precedence : BinaryOperator → Nat
  | orIfNull => 1
  | or => 2
  | and => 3
  | equals | notEquals | is | isNot | ofType => 4
  | less | lessOrEquals | more | moreOrEquals => 5
  | plus | minus => 6
  | times | divide | modulo => 7

/-- The operator that a token stands for between two operands. -/
def ofToken? : TokenKind → Option BinaryOperator
  | .keyword .orIfNull => some orIfNull
  | .keyword .or => some or
  | .keyword .and => some and
  | .mark .equalEqual => some equals
  | .mark .notEqual => some notEquals
  | .keyword .is => some is
  | .keyword .isnt => some isNot
  | .keyword .oftype => some ofType
  | .mark .less => some less
  | .mark .lessEqual => some lessOrEquals
  | .mark .greater => some more
  | .mark .greaterEqual => some moreOrEquals
  | .mark .plus => some plus
  | .mark .minus => some minus
  | .mark .star => some times
  | .mark .slash => some divide
  | .mark .percent => some modulo
  | _ => none

end BinaryOperator

/-- An operator in front of one operand. -/
inductive UnaryOperator where
  | not
  | minus
deriving DecidableEq, Repr, Inhabited

namespace UnaryOperator

/-- How the operator is written. -/
def spelling : UnaryOperator → String
  | not => "not"
  | minus => "-"

/-- Operators in front bind tighter than every operator between operands. -/
def precedence : Nat := 8

/-- The operator that a token stands for in front of an operand. -/
def ofToken? : TokenKind → Option UnaryOperator
  | .keyword .not => some not
  | .mark .minus => some minus
  | _ => none

end UnaryOperator

end GoloSyntax
