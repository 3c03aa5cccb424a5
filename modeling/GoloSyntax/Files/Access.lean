import GoloSyntax.Files.Tree

/-! # Access to files

The library reads files through a `FileAccess`, which is all it knows of a file system:
how to read a text, how to list a directory with everything below it, how to have work
done by several workers, and how many of them there should be. `FileSystem.access` reads
and lists a tree of files, with one worker after the other.
-/

namespace GoloSyntax

/-- A directory that cannot be listed, the root of the listing or one below it. -/
structure WalkError where
  path : String
  cause : FileError
deriving DecidableEq, Repr

/-- A file system whose operations run in `m`. -/
structure FileAccess (m : Type → Type) where
  /-- The text of the file at a path. -/
  readText : String → m (Except FileError String)
  /-- The files and directories at a path and below it. -/
  list : String → m (Except WalkError (FileTree Unit))
  /-- Have some work done, each piece by a worker with a stack of so many bytes, perhaps at
  the same time as others. The answers keep the order of the pieces. A worker may fail to
  start. -/
  inParallel : {α : Type} → (stackSize : Nat) → List (m α) → m (Except FileError (List α))
  /-- How many workers it is reasonable to have at the same time. -/
  workers : m Nat

namespace FileTree

mutual

/-- The tree without the contents of its files. -/
def skeleton {α : Type} : FileTree α → FileTree Unit
  | file _ => file ()
  | directory entries => directory (skeletonOfEntries entries)

/-- The entries of a directory without the contents of their files. -/
def skeletonOfEntries {α : Type} : List (String × FileTree α) → List (String × FileTree Unit)
  | [] => []
  | (name, t) :: entries => (name, skeleton t) :: skeletonOfEntries entries

end

end FileTree

namespace FileSystem

/-- The text of a file, which must be UTF-8. -/
def readText (s : FileSystem ByteArray) (path : String) : Except FileError String :=
  match s.lookup? path with
  | .error e => .error e
  | .ok (.directory _) => .error .isDirectory
  | .ok (.file content) =>
    match String.fromUTF8? content with
    | some text => .ok text
    | none => .error .invalidText

/-- The files and directories at a path, if each of them can be looked up. -/
def list (s : FileSystem ByteArray) (path : String) : Except WalkError (FileTree Unit) :=
  match s.lookup? path with
  | .error cause => .error ⟨path, cause⟩
  | .ok found =>
    match found.outOfReach? path with
    | some below => .error ⟨below, .nameTooLong⟩
    | none => .ok found.skeleton

/-- Access to a tree of files that stay what they are. -/
def access (s : FileSystem ByteArray) : FileAccess Id where
  readText := s.readText
  list := s.list
  inParallel _ work := Except.ok work
  workers := 1

end FileSystem

end GoloSyntax
