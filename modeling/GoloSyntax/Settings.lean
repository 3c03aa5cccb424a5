import GoloSyntax.Files.Access
import GoloSyntax.Limits
import GoloSyntax.Toml.Document
import GoloSyntax.Tree.Dump

/-! # Settings

Settings are read from a TOML document with two tables, `limits` and `dump`, both
optional and each with optional keys; nothing else may stand in it. What is not given
keeps its default. A table may also be written as the array of its values in the order
of its keys: all seven of them for the limits, the first few of them for dumps.

A document that says something else is malformed, whatever its values; only then are the
limits held against their ranges. A settings file that does not exist means the
defaults.

How the text of a document is read is left to a parameter of `Settings.decode` and
`Settings.load`, which stands for `Toml.Document.read?`.
-/

namespace GoloSyntax

/-- What a run of the program can be told in advance. -/
structure Settings where
  limits : Limits := {}
  dump : DumpOptions := {}
deriving DecidableEq, Repr, Inhabited

/-- Why there are no settings. -/
inductive SettingsError where
  | unreadable (path : String) (cause : FileError)
  | malformed (path : String)
  | limit (error : LimitError)
deriving DecidableEq, Repr

/-- The wording of an error. -/
def SettingsError.message : SettingsError → String
  | unreadable path cause => "Failed to read config '" ++ path ++ "': " ++ cause.message
  | malformed path => "Malformed config '" ++ path ++ "'"
  | limit error => error.message

namespace Settings

/-- The file that settings are read from unless another one is named. -/
def defaultFile : String := "golo.toml"

open Toml (Value Table)

/-- A value that is a natural number. -/
def natural? : Value → Option Nat
  | .integer n => if 0 ≤ n then some n.toNat else none
  | _ => none

/-- A value that is a text. -/
def text? : Value → Option String
  | .string text => some text
  | _ => none

/-- A value that is a truth value. -/
def truth? : Value → Option Bool
  | .boolean value => some value
  | _ => none

/-- Give a limit the value that a document has for it. -/
def setLimit? (l : Limits) (name : LimitName) (value : Value) : Option Limits :=
  (natural? value).map (l.set name)

/-- The limits that a value describes. -/
def limits? : Value → Option Limits
  | .table _ entries =>
    entries.foldlM (fun l (key, value) => do setLimit? l (← LimitName.ofKey? key) value) {}
  | .array values =>
    if values.length < LimitName.all.length then none
    else (LimitName.all.zip values).foldlM (fun l (name, value) => setLimit? l name value) {}
  | _ => none

/-- The keys of the table for dumps. -/
inductive DumpKey where
  | linePrefix
  | indent
  | showSpans
deriving DecidableEq, Repr

/-- Every key, in the order in which arrays give their values. -/
def DumpKey.all : List DumpKey := [linePrefix, indent, showSpans]

/-- How the key is written. -/
def DumpKey.key : DumpKey → String
  | linePrefix => "prefix"
  | indent => "indent"
  | showSpans => "show_spans"

/-- Give a dump option the value that a document has for it. -/
def setDumpOption? (o : DumpOptions) (key : DumpKey) (value : Value) : Option DumpOptions :=
  match key with
  | .linePrefix => (text? value).map fun linePrefix => { o with linePrefix }
  | .indent => (natural? value).map fun indent => { o with indent }
  | .showSpans => (truth? value).map fun showSpans => { o with showSpans }

/-- The dump options that a value describes. -/
def dumpOptions? : Value → Option DumpOptions
  | .table _ entries =>
    entries.foldlM (fun o (key, value) => do
      setDumpOption? o (← DumpKey.all.find? (·.key == key)) value) {}
  | .array values =>
    (DumpKey.all.zip values).foldlM (fun o (key, value) => setDumpOption? o key value) {}
  | _ => none

/-- The settings that a document describes, its limits as they are. -/
def ofTable? (t : Table) : Option Settings :=
  t.foldlM (fun s (key, value) =>
    if key = "limits" then (limits? value).map fun limits => { s with limits }
    else if key = "dump" then (dumpOptions? value).map fun dump => { s with dump }
    else none) {}

/-- The settings in a text, which came from the file at `path`; `read?` reads documents. -/
def decode (read? : String → Option Table) (path text : String) : Except SettingsError Settings :=
  match (read? text).bind ofTable? with
  | none => .error (.malformed path)
  | some settings =>
    match settings.limits.validate? with
    | some e => .error (.limit e)
    | none => .ok settings

/-- The settings in a TOML text, which came from the file at `path`. -/
def ofText (path text : String) : Except SettingsError Settings :=
  decode Toml.Document.read? path text

/-- The settings in the file at `path`; `read?` reads documents. -/
def load {m : Type → Type} [Monad m] (read? : String → Option Table) (access : FileAccess m)
    (path : String) : m (Except SettingsError Settings) := do
  match ← access.readText path with
  | .ok text => return decode read? path text
  | .error .notFound => return .ok {}
  | .error cause => return .error (.unreadable path cause)

end Settings

end GoloSyntax
