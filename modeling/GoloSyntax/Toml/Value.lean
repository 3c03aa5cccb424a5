/-! # TOML values and tables

A TOML document is a table of values by key. How a table came about decides what may
still be added to it (`Origin`): a table with a header of its own takes the keys below
that header, a table made by dotted keys takes further dotted keys, a table that only
lies on the path to another one may still be given a header, and a table written inline
is complete.

`Table.update?` changes the table at the end of a path; the three ways in which a
document adds to its tables, by a key, by a header and by the header of an array
element, are instances of it. All of them refuse to define anything twice.
-/

namespace GoloSyntax.Toml

/-- How a table came about. -/
inductive Origin where
  /-- By a header, or as the whole document. -/
  | header
  /-- As a step on the way to a table with a header. -/
  | passage
  /-- By a dotted key. -/
  | dotted
  /-- Between braces. -/
  | inline
deriving DecidableEq, Repr, Inhabited

/-- A value. Numbers with a fraction or exponent and dates are kept as they are
written. -/
inductive Value where
  | string (text : String)
  | integer (value : Int)
  | float (text : String)
  | boolean (value : Bool)
  | dateTime (text : String)
  | array (elements : List Value)
  | table (origin : Origin) (entries : List (String × Value))
  /-- Tables that share a header in double brackets, the last one first. -/
  | tables (elements : List Value)
deriving Repr, Inhabited

/-- The entries of a table, in the order in which they were written. -/
abbrev Table := List (String × Value)

namespace Table

/-- Give a key a value, in its old place if it has one. -/
def put (t : Table) (key : String) (value : Value) : Table :=
  match t with
  | [] => [(key, value)]
  | (k, v) :: rest => if k = key then (k, value) :: rest else (k, v) :: put rest key value

/-- Change the table at the end of a path by `f`, which is told how the table came
about. Tables missing on the way are made, by the dotted key that names them
(`dotted`) or as passages to a header. A dotted key does not lead into tables that have a
header, nothing leads into inline tables, and an array of tables stands for its last
element. -/
def update? (dotted : Bool) (f : Origin → Table → Option Table) :
    List String → Origin → Table → Option Table
  | [], origin, t => f origin t
  | key :: path, _, t =>
    match t.lookup key with
    | none =>
      let origin := if dotted then Origin.dotted else .passage
      (update? dotted f path origin []).map fun inner => t.put key (.table origin inner)
    | some (.table origin inner) =>
      if origin = .inline ∨ (dotted ∧ origin = .header) then none
      else (update? dotted f path origin inner).map fun inner => t.put key (.table origin inner)
    | some (.tables (.table origin inner :: others)) =>
      (update? dotted f path origin inner).map fun inner =>
        t.put key (.tables (.table origin inner :: others))
    | some _ => none

/-- Give a new key below a dotted path a value. -/
def insert? (t : Table) (origin : Origin) (path : List String) (key : String) (value : Value) :
    Option Table :=
  update? true (fun origin t =>
    if path ≠ [] ∧ origin ≠ .dotted then none
    else if (t.lookup key).isSome then none
    else some (t ++ [(key, value)])) path origin t

/-- Give the table with a given path a header. -/
def addHeader? (t : Table) (path : List String) (key : String) : Option Table :=
  update? false (fun _ t =>
    match t.lookup key with
    | none => some (t ++ [(key, .table .header [])])
    | some (.table .passage inner) => some (t.put key (.table .header inner))
    | some _ => none) path .header t

/-- Add a table to the array of tables with a given path. -/
def addElement? (t : Table) (path : List String) (key : String) : Option Table :=
  update? false (fun _ t =>
    match t.lookup key with
    | none => some (t ++ [(key, .tables [.table .header []])])
    | some (.tables elements) => some (t.put key (.tables (.table .header [] :: elements)))
    | some _ => none) path .header t

end Table

end GoloSyntax.Toml
