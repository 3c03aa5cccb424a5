import GoloSyntax.Grammar.Reading

/-! # Declarations

A compilation unit is a module declaration, then imports, then functions,
augmentations and structures, one declaration to a line. Functions read the same
whether they are declared or stand in an expression.
-/

namespace GoloSyntax.Grammar

open Reading

/-- What may stand at the top level behind the imports. -/
def topLevelStarts : List Expected :=
  [.token (.keyword .function), .token (.keyword .local_), .token (.keyword .augment),
    .token (.keyword .struct), .token .endOfInput]

/-- Read a declaration of the top level and what ends it; the answer says whether
imports may still follow. -/
def topLevel (rule : Rule) (imports : Bool) : Reading (Round Bool Unit) := do
  child Tree.root rule
  terminator false
  return .again imports

/-- The module declaration and everything behind it, up to the end of input. -/
def compilationUnit : Reading NodeId := do
  skipNewlines
  child Tree.root .moduleDeclaration
  terminator false
  repeating true fun imports => do
    skipNewlines
    match ← peek with
    | .endOfInput => return .stop ()
    | .keyword .function | .keyword .local_ => topLevel .functionDeclaration false
    | .keyword .augment => topLevel .augmentation false
    | .keyword .struct => topLevel .struct false
    | .keyword .import_ =>
      if imports then topLevel .importDeclaration true else reject topLevelStarts
    | _ =>
      if imports then reject (.token (.keyword .import_) :: topLevelStarts)
      else reject topLevelStarts
  return Tree.root

/-- `module a.b` -/
def moduleDeclaration : Reading NodeId := do
  expect (.keyword .module_)
  let name ← qualifiedName .module_
  leaf (.module_ name)

/-- `import a.b` -/
def importDeclaration : Reading NodeId := do
  expect (.keyword .import_)
  let name ← qualifiedName .imported
  leaf (.import_ name)

/-- `local function f = |a| ...` -/
def functionDeclaration : Reading NodeId := do
  let isLocal ← accept (.keyword .local_)
  expect (.keyword .function)
  let name ← identifier .function
  expect (.mark .assign)
  let declaration ← openNode (.functionDeclaration name isLocal)
  match ← peek with
  | .mark .pipe | .mark .leftBrace | .mark .arrow =>
    child declaration .function
    closeNode declaration
  | _ => reject [.token (.mark .pipe), .token (.mark .leftBrace), .token (.mark .arrow)]

/-- Parameter names up to the closing bar; the answer says whether the last one collects
the remaining arguments. -/
def parameters (function : NodeId) : Reading Bool := do
  if (← peek) = .mark .pipe then return false
  else
    repeatUntil do
      let parameter ← framed do
        let name ← identifier .parameter
        leaf (.parameter name)
      attach function parameter
      match ← peek with
      | .mark .comma =>
        advance
        return .again ()
      | .mark .ellipsis =>
        advance
        if (← peek) = .mark .pipe then return .stop true else reject [.token (.mark .pipe)]
      | .mark .pipe => return .stop false
      | _ => reject [.token (.mark .comma), .token (.mark .ellipsis), .token (.mark .pipe)]

/-- Parameters between bars, if there are any. -/
def parameterList (function : NodeId) : Reading Bool := do
  if ← accept (.mark .pipe) then
    let varargs ← parameters function
    expect (.mark .pipe)
    return varargs
  else return false

/-- `|a, b...| { ... }`, `|a| -> expression`, or either without parameters. -/
def function : Reading NodeId := do
  let function ← openNode (.function false false)
  let varargs ← parameterList function
  match ← peek with
  | .mark .leftBrace =>
    child function .block
    setKind function (.function varargs false)
    closeNode function
  | .mark .arrow =>
    advance
    skipNewlines
    child function (.expression 0)
    setKind function (.function varargs true)
    closeNode function
  | _ => reject [.token (.mark .leftBrace), .token (.mark .arrow)]

/-- `augment a.B { function ... }` -/
def augmentation : Reading NodeId := do
  expect (.keyword .augment)
  let target ← qualifiedName .augmentedType
  let augmentation ← openNode (.augmentation target)
  expect (.mark .leftBrace)
  repeatUntil do
    skipNewlines
    match ← peek with
    | .mark .rightBrace =>
      advance
      return .stop ()
    | .keyword .function | .keyword .local_ =>
      child augmentation .functionDeclaration
      terminator true
      return .again ()
    | _ =>
      reject [.token (.keyword .function), .token (.keyword .local_),
        .token (.mark .rightBrace)]
  closeNode augmentation

/-- `struct S = { a, b }` -/
def struct : Reading NodeId := do
  expect (.keyword .struct)
  let name ← identifier .struct
  expect (.mark .assign)
  expect (.mark .leftBrace)
  let struct ← openNode (.struct name)
  repeatUntil do
    skipNewlines
    let member ← framed do
      let name ← identifier .member
      leaf (.member name)
    attach struct member
    skipNewlines
    match ← peek with
    | .mark .comma =>
      advance
      return .again ()
    | .mark .rightBrace =>
      advance
      return .stop ()
    | _ => reject [.token (.mark .comma), .token (.mark .rightBrace)]
  closeNode struct

end GoloSyntax.Grammar
