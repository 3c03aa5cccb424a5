import GoloSyntax.Tree.Literal
import GoloSyntax.Tree.Operator

/-! # What the nodes of a syntax tree are

A `NodeKind` says what a node is and carries what the node itself knows: names,
operators, literal values. The parts of a construct are the node's children, in source
order:

* `module`, `import`, `parameter`, `member`, `reference`, `functionRef`,
  `classLiteral`, `literal`, `break` and `continue` nodes have none;
* `functionDeclaration` has one `function`; `function` has its parameters and then its
  body, a block or an expression; `augmentation` has function declarations; `struct`
  has at least one member;
* `block` has statements; `letOrVar`, `assignment`, `throw` and `unary` have one
  expression and `return` at most one; `if` has a condition, a block and perhaps an
  `if` or a block; `while` has a condition and a block; `for` has a declaration, a
  condition, a statement and a block; `forEach` has an expression and a block; `try`
  has a block and then a `catch`, a `finally` or both, which have one block each;
* `case` and `match` have at least one `when` and then one `otherwise`; `when` has a
  condition and a branch, `otherwise` a branch; a branch is a block in a `case` and an
  expression in a `match`;
* `binary` has its two operands; `functionInvocation` and `collection` have any number
  of expressions; `methodInvocation` and `anonymousCall` have a receiver and then the
  arguments.
-/

namespace GoloSyntax

/-- The type of a collection literal. -/
inductive CollectionKind where
  /-- Also the type of a literal without a word in front. -/
  | tuple
  | list | set | vector | array | map
deriving DecidableEq, Repr, Inhabited

namespace CollectionKind

/-- The word written in front of the bracket. -/
def word : CollectionKind → String
  | tuple => "tuple" | list => "list" | set => "set"
  | vector => "vector" | array => "array" | map => "map"

def all : List CollectionKind := [tuple, list, set, vector, array, map]

/-- The type that a word in front of a bracket asks for. -/
def ofWord? (word : String) : Option CollectionKind := all.find? (·.word == word)

theorem ofWord?_word (k : CollectionKind) : ofWord? k.word = some k := by
  cases k <;> decide

end CollectionKind

/-- What a node is. -/
inductive NodeKind where
  | compilationUnit
  | module_ (name : String)
  | import_ (name : String)
  | functionDeclaration (name : String) (isLocal : Bool)
  /-- `varargs` if the last parameter collects the remaining arguments, `compact` if
  the body is an expression behind an arrow. -/
  | function (varargs compact : Bool)
  | parameter (name : String)
  | augmentation (target : String)
  | struct (name : String)
  | member (name : String)
  | block
  | letOrVar (name : String) (isMutable : Bool)
  | assignment (name : String)
  | return_
  | throw
  | if_
  | while_
  | for_
  | forEach (variable_ : String)
  | try_
  | catch_ (variable_ : String)
  | finally_
  | case_
  | when_
  | otherwise
  | break_
  | continue_
  | match_
  | binary (op : BinaryOperator)
  | unary (op : UnaryOperator)
  | functionInvocation (name : String)
  | methodInvocation (name : String)
  | anonymousCall
  | reference (name : String)
  | functionRef (name : String)
  | classLiteral (name : String)
  | collection (type : CollectionKind)
  | literal (value : Literal)
deriving DecidableEq, Repr, Inhabited

/-- A modifier of a function declaration or function. -/
inductive Modifier where
  | onlyLocal
  | varargs
  | compact
deriving DecidableEq, Repr, Inhabited

namespace Modifier

/-- How dumps write the modifier. -/
def word : Modifier → String
  | onlyLocal => "local"
  | varargs => "varargs"
  | compact => "compact"

end Modifier

namespace NodeKind

/-- The name of a kind. -/
def label : NodeKind → String
  | compilationUnit => "CompilationUnit"
  | module_ _ => "Module"
  | import_ _ => "Import"
  | functionDeclaration .. => "FunctionDeclaration"
  | function .. => "Function"
  | parameter _ => "Parameter"
  | augmentation _ => "Augmentation"
  | struct _ => "Struct"
  | member _ => "Member"
  | block => "Block"
  | letOrVar _ false => "Let"
  | letOrVar _ true => "Var"
  | assignment _ => "Assignment"
  | return_ => "Return"
  | throw => "Throw"
  | if_ => "If"
  | while_ => "While"
  | for_ => "For"
  | forEach _ => "ForEach"
  | try_ => "Try"
  | catch_ _ => "Catch"
  | finally_ => "Finally"
  | case_ => "Case"
  | when_ => "When"
  | otherwise => "Otherwise"
  | break_ => "Break"
  | continue_ => "Continue"
  | match_ => "Match"
  | binary _ => "Binary"
  | unary _ => "Unary"
  | functionInvocation _ => "FunctionInvocation"
  | methodInvocation _ => "MethodInvocation"
  | anonymousCall => "AnonymousCall"
  | reference _ => "Reference"
  | functionRef _ => "FunctionRef"
  | classLiteral _ => "ClassLiteral"
  | collection _ => "Collection"
  | literal _ => "Literal"

/-- The identifier or qualified name that a node carries, if any. -/
def name? : NodeKind → Option String
  | module_ name | import_ name | functionDeclaration name _ | parameter name
  | augmentation name | struct name | member name | letOrVar name _ | assignment name
  | forEach name | catch_ name | functionInvocation name | methodInvocation name
  | reference name | functionRef name | classLiteral name => some name
  | _ => none

/-- The modifiers of a function declaration or function, in the order in which dumps
list them; `none` for every other kind. -/
def modifiers? : NodeKind → Option (List Modifier)
  | functionDeclaration _ isLocal => some (if isLocal then [.onlyLocal] else [])
  | function varargs compact =>
    some ((if varargs then [.varargs] else []) ++ (if compact then [.compact] else []))
  | _ => none

end NodeKind

end GoloSyntax
