import GoloSyntax.Command.Options
import GoloSyntax.Settings

/-! # What a command line asks for

There are two commands: `parse` for a list of files and `check` for a directory. Options
for the settings file and for more output may stand on either side of the command's name;
of two settings files the one behind it counts.
-/

namespace GoloSyntax.Command

/-- A command with its own options and arguments. -/
inductive Action where
  /-- Parse files and perhaps dump them. -/
  | parse (files : List String) (trace : Bool) (linePrefix : Option String) (spans : Bool)
  /-- Parse every source file of a directory. -/
  | check (directory : String) (jobs : Option Nat)
deriving DecidableEq, Repr, Inhabited

/-- A whole command line. -/
structure Invocation where
  settingsFile : String
  /-- How often more output was asked for. -/
  verbosity : Nat
  action : Action
deriving DecidableEq, Repr, Inhabited

/-- The options that may stand on either side of a command's name. -/
def sharedOptions : List OptionSpec :=
  [⟨"verbose", some 'v', .counted⟩, ⟨"config", none, .valued .path⟩]

/-- What may stand in front of a command's name. -/
def topLevel : LevelSpec := ⟨sharedOptions, some 0⟩

/-- What may stand behind `parse`. -/
def parseLevel : LevelSpec :=
  ⟨[⟨"trace", none, .flag⟩, ⟨"prefix", none, .valued .text⟩, ⟨"spans", none, .flag⟩] ++
    sharedOptions, none⟩

/-- What may stand behind `check`. -/
def checkLevel : LevelSpec :=
  ⟨⟨"jobs", some 'j', .valued .number⟩ :: sharedOptions, some 1⟩

/-- Options and arguments of one command. -/
def readArguments (spec : LevelSpec) (args : List String) : Except Refusal Level := do
  let (level, (_ : Option Unit)) ←
    readLevel spec (fun _ _ => none) (args.length + 1) args (.ok {})
  return level

/-- What stands behind a command's name, as read and as an action. -/
abbrev Tail := Level × Action

/-- The arguments of `parse`. -/
def readParse (args : List String) : Except Refusal Tail := do
  let l ← readArguments parseLevel args
  match l.arguments with
  | [] => .error .usage
  | files => return (l, .parse files (l.has "trace") (l.value? "prefix") (l.has "spans"))

/-- The arguments of `check`. -/
def readCheck (args : List String) : Except Refusal Tail := do
  let l ← readArguments checkLevel args
  match l.arguments with
  | [directory] => return (l, .check directory ((l.value? "jobs").bind readNumber?))
  | _ => .error .usage

/-- The arguments of `help`: at most the name of one command. -/
def readHelp : List String → Except Refusal Tail
  | [] | ["parse"] | ["check"] | ["help"] => .error .help
  | _ => .error .usage

/-- A command by its name. -/
def readCommand (name : String) (args : List String) : Option (Except Refusal Tail) :=
  if name = "parse" then some (readParse args)
  else if name = "check" then some (readCheck args)
  else if name = "help" then some (readHelp args)
  else some (.error .usage)

/-- A whole command line, without the name of the program. -/
def Invocation.read (args : List String) : Except Refusal Invocation := do
  match ← readLevel topLevel readCommand (args.length + 1) args (.ok {}) with
  | (above, some (below, action)) =>
    let config := (below.value? "config").or (above.value? "config")
    return ⟨config.getD Settings.defaultFile,
      above.count "verbose" + below.count "verbose", action⟩
  | (_, none) => .error .usage

/-- How the program reads what it is told: command lines, without its own name, and the
documents in settings files. -/
structure Readers where
  invocation : List String → Except Refusal Invocation
  document : String → Option Toml.Table

/-- The readers that the program has. -/
def Readers.standard : Readers := ⟨Invocation.read, Toml.Document.read?⟩

end GoloSyntax.Command
