import GoloSyntax.Number.Shortest
import GoloSyntax.Text.Quoted
import GoloSyntax.Tree.Basic

/-! # Dumps

A dump shows a subtree as text, one line for each node in pre-order. A line consists of
a prefix, blanks for the depth of the node below the start, the name of its kind, what
the node itself carries, and optionally its span.

A dump is lazy: `DumpCursor` gives out one line at a time (`DumpCursor.next?`), and a
cursor is a value, so that the rest of a dump can be read more than once.
-/

namespace GoloSyntax

/-- How the lines of a dump look. -/
structure DumpOptions where
  /-- Written in front of every line. -/
  linePrefix : String := ""
  /-- Blanks for each level of depth. -/
  indent : Nat := 2
  /-- Write the span behind each line. -/
  showSpans : Bool := false
deriving DecidableEq, Repr, Inhabited

/-- How dumps write a literal. -/
def Literal.render : Literal → String
  | .null => "null"
  | .boolean value => if value then "true" else "false"
  | .integer value => toString value
  | .long value => toString value ++ "_L"
  | .float value => FloatFormat.single.render value ++ "_F"
  | .double value => FloatFormat.double.render value
  | .character value => quoteCharacter value
  | .string text => quoteText text

namespace NodeKind

/-- The words that follow the name of the kind and the name a node carries. -/
def details : NodeKind → List String
  | .binary op => [op.spelling]
  | .unary op => [op.spelling]
  | .collection type => [type.word]
  | .literal value => [value.render]
  | kind =>
    match kind.modifiers? with
    | some (m :: ms) => ["[" ++ ", ".intercalate ((m :: ms).map Modifier.word) ++ "]"]
    | _ => []

/-- A node as a dump shows it, without prefix, indentation and span. -/
def render (kind : NodeKind) : String :=
  let name := match kind.name? with
    | some name => ["'" ++ name ++ "'"]
    | none => []
  " ".intercalate (kind.label :: name ++ kind.details)

end NodeKind

/-- A dump part of the way through: the nodes whose subtrees are still to be shown, with
their depths. -/
structure DumpCursor where
  tree : Tree
  options : DumpOptions
  pending : List (NodeId × Nat)
deriving Inhabited

namespace DumpCursor

/-- The line for one node. -/
def line (c : DumpCursor) (id : NodeId) (depth : Nat) : String :=
  c.options.linePrefix ++ "".pushn ' ' (depth * c.options.indent) ++ (c.tree.kind id).render ++
    (if c.options.showSpans then " @" ++ (c.tree.span id).display else "")

/-- The next line and the cursor behind it. -/
def next? (c : DumpCursor) : Option (String × DumpCursor) :=
  match c.pending with
  | [] => none
  | (id, depth) :: pending =>
    let children := (c.tree.children id).map fun child => (child, depth + 1)
    some (c.line id depth, { c with pending := children ++ pending })

/-- At most `n` lines, behind those already given, and the cursor behind them. -/
def takeFrom : Nat → DumpCursor → Array String → Array String × DumpCursor
  | 0, c, lines => (lines, c)
  | n + 1, c, lines =>
    match c.next? with
    | none => (lines, c)
    | some (line, c) => takeFrom n c (lines.push line)

/-- At most `n` lines and the cursor behind them. -/
def take (c : DumpCursor) (n : Nat) : List String × DumpCursor :=
  let (lines, c) := takeFrom n c #[]
  (lines.toList, c)

/-- All remaining lines and the cursor at the end. No dump has more lines than its tree
has nodes. -/
def rest (c : DumpCursor) : List String × DumpCursor :=
  c.take c.tree.size

end DumpCursor

namespace Tree

/-- The dump of a subtree. -/
def dump (t : Tree) (id : NodeId) (options : DumpOptions) : DumpCursor :=
  ⟨t, options, [(id, 0)]⟩

/-- The lines of the dump of a subtree. -/
def dumpLines (t : Tree) (id : NodeId) (options : DumpOptions) : List String :=
  (t.dump id options).rest.1

/-- The whole tree as a text, with a line feed behind each line of its dump. -/
def render (t : Tree) : String :=
  (t.dumpLines root {}).foldl (fun out line => out ++ line ++ "\n") ""

end Tree

end GoloSyntax
