import GoloSyntax.Command.Invocation
import GoloSyntax.Files.Batch

/-! # Carrying out a command line

`run` carries out a command line in a file system and answers an `Outcome`: what is
written to standard output and to standard error, and the exit status. The status is 0
if every file was parsed, 1 if one was not or the settings could not be had, and 2 if the
command line is not in order.

`parse` reports the failures in the order of its arguments and dumps the other files if
asked to, each behind a line with its path. `check` reports the failures in the order of
the paths and then counts.
-/

namespace GoloSyntax.Command

/-- What a run of the program leaves behind. -/
structure Outcome where
  exitStatus : Nat
  stdout : String := ""
  stderr : String := ""
deriving DecidableEq, Repr, Inhabited

/-- How to use the program. -/
def usageText : String :=
  "Usage: golo [-v] [--config FILE] parse [--trace] [--prefix TEXT] [--spans] FILE...\n" ++
    "       golo [-v] [--config FILE] check [-j JOBS] DIRECTORY\n"

/-- Texts, each with a line feed behind it. -/
def unlines (texts : List String) : String :=
  texts.foldl (fun out text => out ++ text ++ "\n") ""

/-- The messages of the files that failed, in order. -/
def failures (results : List FileResult) : List String :=
  results.filterMap fun r =>
    match r.result with
    | .ok _ => none
    | .error problem => some problem.message

/-- The dumps of the files that were parsed, in order, each behind its path. -/
def traces (options : DumpOptions) (results : List FileResult) : List String :=
  results.flatMap fun r =>
    match r.result with
    | .ok tree => (r.path ++ ":") :: tree.dumpLines Tree.root options
    | .error _ => []

/-- The exit status for some results. -/
def statusOf (results : List FileResult) : Nat := if results.all FileResult.isOk then 0 else 1

/-- The dump options of a run: those of the settings, as the command line changes them. -/
def tracing (settings : DumpOptions) (linePrefix : Option String) (spans : Bool) :
    DumpOptions :=
  { settings with
    linePrefix := linePrefix.getD settings.linePrefix
    showSpans := settings.showSpans || spans }

/-- What `parse` leaves behind. -/
def parseOutcome (options : DumpOptions) (trace : Bool) (results : List FileResult) : Outcome :=
  ⟨statusOf results, if trace then unlines (traces options results) else "",
    unlines (failures results)⟩

/-- The line with which `check` ends. -/
def summary (results : List FileResult) : String :=
  let failed := (results.filter fun r => !r.isOk).length
  toString results.length ++ " files, " ++ toString (results.length - failed) ++ " parsed, " ++
    toString failed ++ " failed"

/-- What `check` leaves behind. -/
def checkOutcome (results : List FileResult) : Outcome :=
  ⟨statusOf results, unlines [summary results], unlines (failures results)⟩

/-- A run that comes to nothing. -/
def failed (message : String) : Outcome := ⟨1, "", unlines [message]⟩

variable {m : Type → Type} [Monad m] (access : FileAccess m)

/-- Parse files and leave behind what their results come to. -/
def report (limits : Limits) (paths : List String) (jobs : Nat)
    (outcome : List FileResult → Outcome) : m Outcome := do
  match ← parseFiles access limits paths jobs with
  | .error problem => return failed problem.message
  | .ok results => return outcome results

/-- Carry out a command with some settings. -/
def runAction (settings : Settings) : Action → m Outcome
  | .parse files trace linePrefix spans =>
    report access settings.limits files 1
      (parseOutcome (tracing settings.dump linePrefix spans) trace)
  | .check directory jobs => do
    match ← discover access directory with
    | .error problem => return failed problem.message
    | .ok paths =>
      let workers ← match jobs with
        | some jobs => pure jobs
        | none => access.workers
      report access settings.limits paths workers checkOutcome

/-- Carry out a command line, given without the name of the program. -/
def run (readers : Readers) (args : List String) : m Outcome := do
  match readers.invocation args with
  | .error .help => return ⟨0, usageText, ""⟩
  | .error .usage => return ⟨2, "", usageText⟩
  | .ok invocation =>
    match ← Settings.load readers.document access invocation.settingsFile with
    | .error e => return failed e.message
    | .ok settings => runAction access settings invocation.action

end GoloSyntax.Command
