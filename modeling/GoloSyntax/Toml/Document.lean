import GoloSyntax.Toml.Scalar

/-! # TOML documents

A document is a sequence of lines: a key with its value, the header of a table or of an
element of an array of tables, or nothing, each perhaps with a comment behind it. Keys
below a header belong to its table. `Document.read?` gives the table of a whole document,
or nothing if it is not well formed or defines something twice.
-/

namespace GoloSyntax.Toml

/-- How deeply arrays and inline tables may be nested. -/
def maxNesting : Nat := 79

/-- Read the entries of an inline table behind its opening brace, at least one; `n` bounds
their number and `value?` reads a value. -/
def inlineEntries (value? : List Char → Option (Value × List Char)) :
    Nat → Table → List Char → Option (Table × List Char)
  | 0, _, _ => none
  | n + 1, t, cs => do
    let (key, cs) ← key? cs
    let cs ← skip? '=' cs
    let (value, cs) ← value? (skipBlanks cs)
    let t ← t.insert? .inline key.dropLast (key.getLast?.getD "") value
    match skipBlanks cs with
    | ',' :: cs => inlineEntries value? n t cs
    | '}' :: cs => some (t, cs)
    | _ => none

/-- An inline table behind its opening brace. -/
def inlineTable? (value? : List Char → Option (Value × List Char)) (cs : List Char) :
    Option (Value × List Char) :=
  match skipBlanks cs with
  | '}' :: cs => some (.table .inline [], cs)
  | cs => (inlineEntries value? (cs.length + 1) [] cs).map fun (t, cs) => (.table .inline t, cs)

/-- Read the elements of an array behind its opening bracket or a comma; `n` bounds their
number and `value?` reads a value. A comma may stand behind the last one. -/
def arrayElements (value? : List Char → Option (Value × List Char)) :
    Nat → List Value → List Char → Option (Value × List Char)
  | 0, _, _ => none
  | n + 1, before, cs =>
    match skipSpace cs with
    | ']' :: cs => some (.array before.reverse, cs)
    | cs => do
      let (value, cs) ← value? cs
      match skipSpace cs with
      | ',' :: cs => arrayElements value? n (value :: before) cs
      | ']' :: cs => some (.array (value :: before).reverse, cs)
      | _ => none

/-- Read a value with at most `depth` levels of arrays and inline tables. -/
def value? : Nat → List Char → Option (Value × List Char)
  | depth, cs =>
    match cs with
    | '"' :: _ | '\'' :: _ => (string? cs).map fun (text, cs) => (.string text, cs)
    | '[' :: inner =>
      match depth with
      | 0 => none
      | depth + 1 => arrayElements (value? depth) (inner.length + 1) [] inner
    | '{' :: inner =>
      match depth with
      | 0 => none
      | depth + 1 => inlineTable? (value? depth) inner
    | _ =>
      let (run, rest) := scalarRun cs
      (scalar? run).map fun value => (value, rest)

/-- The part of a document that has been read: its table, and the path of the table that
keys are added to. -/
structure Document where
  table : Table := []
  path : List String := []

namespace Document

/-- Add a key with its value below the last header. -/
def addKey? (d : Document) (key : List String) (value : Value) : Option Document :=
  let add (origin : Origin) (t : Table) : Option Table :=
    t.insert? origin key.dropLast (key.getLast?.getD "") value
  (Table.update? false add d.path .header d.table).map fun table => { d with table }

/-- A header in single or double brackets, behind its first bracket. -/
def header? (d : Document) : List Char → Option (Document × List Char)
  | '[' :: cs => do
    let (key, cs) ← key? cs
    let cs ← skip? ']' (← skip? ']' cs)
    let table ← d.table.addElement? key.dropLast (key.getLast?.getD "")
    return (⟨table, key⟩, cs)
  | cs => do
    let (key, cs) ← key? cs
    let cs ← skip? ']' cs
    let table ← d.table.addHeader? key.dropLast (key.getLast?.getD "")
    return (⟨table, key⟩, cs)

/-- What a line says, if anything. -/
def statement? (d : Document) (cs : List Char) : Option (Document × List Char) :=
  match cs with
  | [] | '#' :: _ | '\n' :: _ | '\r' :: _ => some (d, cs)
  | '[' :: cs => d.header? cs
  | _ => do
    let (key, cs) ← key? cs
    let cs ← skip? '=' cs
    let (value, cs) ← value? maxNesting (skipBlanks cs)
    let d ← d.addKey? key value
    return (d, cs)

/-- Read the remaining lines; `n` bounds their number. -/
def lines? : Nat → Document → List Char → Option Document
  | 0, _, _ => none
  | n + 1, d, cs => do
    let (d, cs) ← d.statement? (skipBlanks cs)
    match skipComment (skipBlanks cs) with
    | [] => return d
    | cs => lines? n d (← newline? cs)

/-- Leave out a byte order mark at the beginning of a text. -/
def dropMark : List Char → List Char
  | '\ufeff' :: cs => cs
  | cs => cs

/-- The table of a whole document. -/
def read? (text : String) : Option Table :=
  let cs := dropMark text.toList
  (lines? (cs.length + 1) {} cs).map Document.table

end Document

end GoloSyntax.Toml
