import GoloSyntax.Files.Discovery
import GoloSyntax.Grammar.Parse
import GoloSyntax.Settings

/-! # Parsing files

`parseFile` reads and parses one file, `parseFiles` any number of them, shared out to a
number of workers in chunks of the same length. The results come in the order of the
paths and do not depend on the number of workers.

A worker has a stack that is deep enough for the limit on nesting. Its size is computed in
words of 64 bits before any worker is started. A size that does not fit into a word is an
overflow, with which the program ends.
-/

namespace GoloSyntax

/-- What can go wrong with files. -/
inductive FileProblem where
  | unreadable (path : String) (cause : FileError)
  | unlistable (root : String) (cause : WalkError)
  | unparsable (path : String) (error : ParseError)
  /-- A worker does not start. -/
  | unstartable (cause : FileError)
  /-- The size of the stack for a worker does not fit into a word. The program does not
  report this but ends with it. Limits that are valid keep it away. -/
  | oversizedStack (size : Nat)
  | settings (error : SettingsError)
deriving DecidableEq, Repr

/-- The wording of a problem. -/
def FileProblem.message : FileProblem → String
  | unreadable path cause => "Failed to read '" ++ path ++ "': " ++ cause.message
  | unlistable root cause =>
    "Failed to walk '" ++ root ++ "': IO error for operation on " ++ cause.path ++ ": " ++
      cause.cause.message
  | unparsable path error => path ++ ": " ++ error.display
  | unstartable cause => "Failed to start parser thread: " ++ cause.message
  | oversizedStack size => "Overflow in the stack size " ++ toString size
  | settings error => error.message

/-- A file and what came of it. -/
structure FileResult where
  path : String
  result : Except FileProblem Tree

/-- Whether the file has been parsed. -/
def FileResult.isOk (r : FileResult) : Bool :=
  match r.result with
  | .ok _ => true
  | .error _ => false

/-- Cut a list into at most `n` pieces of a given length, the last one perhaps shorter. -/
def chunks {α : Type} (length : Nat) : Nat → List α → List (List α)
  | 0, _ => []
  | _ + 1, [] => []
  | n + 1, xs => xs.take length :: chunks length n (xs.drop length)

/-- The paths for each of `jobs` workers: no more workers than paths, and at least
one. -/
def shareOut (paths : List String) (jobs : Nat) : List (List String) :=
  let workers := max 1 (min jobs paths.length)
  let length := (paths.length + workers - 1) / workers
  chunks length paths.length paths

section

variable {m : Type → Type} [Monad m] (access : FileAccess m)

/-- The source files at or below a root. -/
def discover (root : String) : m (Except FileProblem (List String)) := do
  match ← access.list root with
  | .ok listing => return .ok (sourceFiles root listing)
  | .error cause => return .error (.unlistable root cause)

/-- Read and parse one file. -/
def parseFile (limits : Limits) (path : String) : m (Except FileProblem Tree) := do
  match ← access.readText path with
  | .error cause => return .error (.unreadable path cause)
  | .ok source =>
    match parseSource source limits with
    | .error e => return .error (.unparsable path e)
    | .ok tree => return .ok tree

/-- The results for the paths of one worker. -/
def parseChunk (limits : Limits) (paths : List String) : m (List FileResult) :=
  paths.mapM fun path => do return ⟨path, ← parseFile access limits path⟩

/-- Read and parse files with a number of workers. -/
def parseFiles (limits : Limits) (paths : List String) (jobs : Nat) :
    m (Except FileProblem (List FileResult)) := do
  if paths.isEmpty then return .ok []
  else if UInt64.size ≤ limits.stackSize then return .error (.oversizedStack limits.stackSize)
  else
    match ← access.inParallel limits.stackSize
        ((shareOut paths jobs).map (parseChunk access limits)) with
    | .error cause => return .error (.unstartable cause)
    | .ok results => return .ok results.flatten

end

end GoloSyntax
