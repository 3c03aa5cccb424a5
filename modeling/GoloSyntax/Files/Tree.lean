/-! # Directory trees

A `FileTree` is a file with some content or a directory with named entries, in the order
in which the directory lists them. A `FileSystem` is a tree of everything there is, in
which one directory is the working directory.

`FileSystem.lookup?` follows a path: from the top if the path begins with a slash, and
else from the working directory. Names are separated by slashes, empty names and `.` stay
where they are, `..` goes back to the directory above, or stays at the top if there is
none, and any name at all behind a file, even an empty one, asks for a directory that is
not there.
-/

namespace GoloSyntax

/-- Why a file or directory cannot be read. -/
inductive FileError where
  | notFound
  | notDirectory
  | isDirectory
  | nameTooLong
  | nulInName
  | invalidText
  /-- Anything else, in the words of the operating system. -/
  | other (message : String)
deriving DecidableEq, Repr, Inhabited

/-- The wording of an error. -/
def FileError.message : FileError → String
  | notFound => "No such file or directory (os error 2)"
  | notDirectory => "Not a directory (os error 20)"
  | isDirectory => "Is a directory (os error 21)"
  | nameTooLong => "File name too long (os error 36)"
  | nulInName => "file name contained an unexpected NUL byte"
  | invalidText => "stream did not contain valid UTF-8"
  | other message => message

/-- A name in a directory, as a path. -/
def joinPath (directory name : String) : String :=
  if directory.toList.getLast? = some '/' then directory ++ name else directory ++ "/" ++ name

/-- A file or a directory, with content of type `α` in its files. -/
inductive FileTree (α : Type) where
  | file (content : α)
  | directory (entries : List (String × FileTree α))
deriving Inhabited

namespace FileTree

variable {α : Type}

/-- The directory without entries. -/
def empty : FileTree α := directory []

/-- The greatest length of a name, in bytes of UTF-8. -/
def maxNameSize : Nat := 255

/-- The greatest length of a path, in bytes of UTF-8. -/
def maxPathSize : Nat := 4095

/-- Follow the segments of a path from `here`, with the directories passed on the way in
`above`. -/
def follow (above : List (FileTree α)) (here : FileTree α) :
    List String → Except FileError (FileTree α)
  | [] => .ok here
  | segment :: path =>
    match here with
    | file _ => .error .notDirectory
    | directory entries =>
      if segment = "" ∨ segment = "." then follow above here path
      else if segment = ".." then
        match above with
        | [] => follow [] here path
        | parent :: above => follow above parent path
      else if maxNameSize < segment.utf8ByteSize then .error .nameTooLong
      else
        match entries.lookup segment with
        | none => .error .notFound
        | some entry => follow (here :: above) entry path

mutual

/-- The first directory, at a path or below it, whose own path is too long to look it up. -/
def outOfReach? (path : String) : FileTree α → Option String
  | file _ => none
  | directory entries =>
    if maxPathSize < path.utf8ByteSize then some path else outOfReachOfEntries? path entries

/-- The first such directory below the entries of the directory at a path. -/
def outOfReachOfEntries? (path : String) : List (String × FileTree α) → Option String
  | [] => none
  | (name, t) :: entries =>
    match outOfReach? (joinPath path name) t with
    | some found => some found
    | none => outOfReachOfEntries? path entries

end

/-- Replace the entry of a directory with some name, or add it at the end. -/
def putEntry (name : String) (f : FileTree α → FileTree α) :
    List (String × FileTree α) → List (String × FileTree α)
  | [] => [(name, f empty)]
  | (other, t) :: entries =>
    if other = name then (other, f t) :: entries else (other, t) :: putEntry name f entries

/-- Change what lies at the end of a path by `f`, making directories on the way. -/
def update (f : FileTree α → FileTree α) : List String → FileTree α → FileTree α
  | [], t => f t
  | name :: path, directory entries => directory (putEntry name (update f path) entries)
  | name :: path, file _ => directory (putEntry name (update f path) [])

mutual

/-- The files of a tree with the names on the way to them, in the order in which the
directories list them. -/
def files : FileTree α → List (List String × α)
  | file content => [([], content)]
  | directory entries => filesOfEntries entries

/-- The files below the entries of a directory. -/
def filesOfEntries : List (String × FileTree α) → List (List String × α)
  | [] => []
  | (name, t) :: entries =>
    (files t).map (fun (path, content) => (name :: path, content)) ++ filesOfEntries entries

end

end FileTree

/-- Everything there is, and where paths begin that do not begin with a slash. -/
structure FileSystem (α : Type) where
  top : FileTree α
  /-- The names on the way from the top to the working directory. -/
  working : List String := []
deriving Inhabited

/-- What a path leads to. There is nothing at an empty path. -/
def FileSystem.lookup? {α : Type} (s : FileSystem α) (path : String) :
    Except FileError (FileTree α) :=
  if path.toList.contains '\x00' then .error .nulInName
  else if FileTree.maxPathSize < path.utf8ByteSize then .error .nameTooLong
  else if path = "" then .error .notFound
  else
    let way := if path.toList.head? = some '/' then [] else s.working
    FileTree.follow [] s.top (way ++ path.splitOn "/")

end GoloSyntax
