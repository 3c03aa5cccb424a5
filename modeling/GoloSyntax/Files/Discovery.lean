import GoloSyntax.Files.Access

/-! # Finding source files

A source file is a file whose name ends in `.golo` with something in front of it.
`sourceFiles` finds all of them at or below a root, sorted name by name along their
paths, whatever the order in which directories list their entries. A file given as the
root counts like any other.
-/

namespace GoloSyntax

/-- The end of the names of source files. -/
def sourceExtension : List Char := ".golo".toList

/-- Whether a file name is that of a source file. -/
def isSourceName (name : String) : Bool :=
  sourceExtension.isSuffixOf name.toList && sourceExtension.length < name.length

/-- The last name of a path. -/
def lastName (path : String) : String := (path.splitOn "/").getLast?.getD ""

/-- Whether a list of names comes before another one, or is the same: name by name, and
character by character within a name. -/
def pathLE (p q : List String) : Bool := decide (¬ q < p)

/-- The paths of the source files at or below a root, of which `listing` is the tree. -/
def sourceFiles (root : String) (listing : FileTree Unit) : List String :=
  let names := listing.files.map Prod.fst
  let found := names.filter fun path => isSourceName (path.getLast?.getD (lastName root))
  (found.mergeSort pathLE).map fun path => path.foldl joinPath root

end GoloSyntax
