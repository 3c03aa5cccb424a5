import GoloSyntax.Command.Run

/-! # The program

Connects `Command.run` to the file system, the standard streams and the exit status of
the process. Nothing is decided here: reading files, listing directories and running
tasks are what `FileAccess` asks for, and an `Outcome` says what to write.
-/

namespace GoloSyntax

/-- An error of the operating system, by its number, which some operations give with a
minus sign, and its wording. -/
def systemError (code : UInt32) (details : String) : FileError :=
  let number := min code.toNat (0 - code).toNat
  if number = 2 then .notFound
  else if number = 20 then .notDirectory
  else if number = 21 then .isDirectory
  else if number = 36 then .nameTooLong
  else .other (details ++ " (os error " ++ Nat.repr number ++ ")")

/-- Why an operation on files failed. -/
def causeOf : IO.Error → FileError
  | .noFileOrDirectory _ code details => systemError code details
  | .alreadyExists _ code details => systemError code details
  | .inappropriateType _ code details => systemError code details
  | .permissionDenied _ code details => systemError code details
  | .resourceExhausted _ code details => systemError code details
  | .invalidArgument _ code details => systemError code details
  | .noSuchThing _ code details => systemError code details
  | .interrupted _ code details => systemError code details
  | .otherError code details => systemError code details
  | .resourceBusy code details => systemError code details
  | .resourceVanished code details => systemError code details
  | .unsupportedOperation code details => systemError code details
  | .hardwareFault code details => systemError code details
  | .unsatisfiedConstraints code details => systemError code details
  | .illegalOperation code details => systemError code details
  | .protocolError code details => systemError code details
  | .timeExpired code details => systemError code details
  | .unexpectedEof => .other "unexpected end of file"
  | .userError message => .other message

/-- A path as the file operations take it. -/
def diskPath (path : String) := (IO.FS.DirEntry.mk path "").root

/-- The text of a file on disk, which must be UTF-8. -/
def readDisk (path : String) : IO (Except FileError String) := do
  match ← (IO.FS.readBinFile (diskPath path)).toBaseIO with
  | .error e => return .error (causeOf e)
  | .ok content =>
    match String.fromUTF8? content with
    | some text => return .ok text
    | none => return .error .invalidText

/-- The files and directories below a directory on disk. Links are left out. -/
partial def listEntries (directory : String) : IO (Except WalkError (FileTree Unit)) := do
  match ← (diskPath directory).readDir.toBaseIO with
  | .error e => return .error ⟨directory, causeOf e⟩
  | .ok found =>
    let mut entries := #[]
    for entry in found do
      let path := joinPath directory entry.fileName
      match ← entry.path.symlinkMetadata.toBaseIO with
      | .error e => return .error ⟨path, causeOf e⟩
      | .ok data =>
        if data.type == .dir then
          match ← listEntries path with
          | .error e => return .error e
          | .ok below => entries := entries.push (entry.fileName, below)
        else if data.type == .file then
          entries := entries.push (entry.fileName, .file ())
    return .ok (.directory entries.toList)

/-- What is at a path on disk and below it. -/
def listDisk (path : String) : IO (Except WalkError (FileTree Unit)) := do
  match ← (diskPath path).metadata.toBaseIO with
  | .error e => return .error ⟨path, causeOf e⟩
  | .ok data => if data.type == .dir then listEntries path else return .ok (.file ())

/-- Run actions at the same time and collect their answers in order. Tasks have the stack
that the runtime gives to all of them. -/
def runTasks {α : Type} (work : List (IO α)) : IO (Except FileError (List α)) := do
  let tasks ← work.mapM fun action => IO.asTask action
  return .ok (← tasks.mapM fun task => IO.ofExcept task.get)

/-- The file system of the machine. -/
def diskAccess : FileAccess IO where
  readText := readDisk
  list := listDisk
  inParallel _ work := runTasks work
  workers := return 8

end GoloSyntax

/-- Carry out the command line. -/
def main (args : List String) : IO UInt32 := do
  let outcome ← GoloSyntax.Command.run GoloSyntax.diskAccess .standard args
  (← IO.getStdout).putStr outcome.stdout
  (← IO.getStderr).putStr outcome.stderr
  return outcome.exitStatus.toUInt32
