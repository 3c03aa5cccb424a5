import GoloSyntax.Source.Position
import GoloSyntax.Symbol
import GoloSyntax.Tree.Kind

/-! # Syntax trees

A `Tree` keeps its nodes in one array, numbered in the order in which they were made;
node 0 is the root. The nodes are linked to each other: a node knows its parent, its
first and last child and its next sibling, so a child is attached in constant time
(`Tree.attach`), and `Tree.children` follows the links from sibling to sibling.

A tree is built by `Tree.push`, which makes a node without any links, and
`Tree.attach`, which makes a node the last child of another one.
-/

namespace GoloSyntax

/-- The number of a node in its tree. -/
structure NodeId where
  index : Nat
deriving DecidableEq, Repr, Inhabited

/-- A node with its links. -/
structure Node where
  kind : NodeKind
  span : Span
  parent : Option NodeId := none
  firstChild : Option NodeId := none
  lastChild : Option NodeId := none
  nextSibling : Option NodeId := none
deriving DecidableEq, Repr, Inhabited

/-- Nodes by number, and the texts that the source and the names in it are made of. -/
structure Tree where
  nodes : Array Node
  symbols : SymbolTable
deriving Inhabited

namespace Tree

/-! ### Reading -/

/-- The number of the compilation unit. -/
def root : NodeId := ⟨0⟩

/-- How many nodes there are. -/
def size (t : Tree) : Nat := t.nodes.size

def isEmpty (t : Tree) : Bool := t.nodes.isEmpty

/-- A node by number; the numbers that the tree has given out are those below its
size. -/
def node? (t : Tree) (id : NodeId) : Option Node := t.nodes[id.index]?

/-- A node by number, an unlinked one for a number that the tree has not given out. -/
def node (t : Tree) (id : NodeId) : Node := (t.node? id).getD default

def kind (t : Tree) (id : NodeId) : NodeKind := (t.node id).kind

def span (t : Tree) (id : NodeId) : Span := (t.node id).span

/-- The nodes from `next` on, sibling by sibling, behind those already `seen`; at most
`n` of them. -/
def siblings (t : Tree) : Nat → Option NodeId → Array NodeId → Array NodeId
  | n + 1, some id, seen => t.siblings n (t.node id).nextSibling (seen.push id)
  | _, _, seen => seen

/-- The children of a node in source order. A node has fewer children than the tree has
nodes. -/
def children (t : Tree) (id : NodeId) : List NodeId :=
  (t.siblings t.size (t.node id).firstChild #[]).toList

/-- The node reached from the root by the indices of children. -/
def descend? (t : Tree) (id : NodeId) : List Nat → Option NodeId
  | [] => some id
  | i :: path =>
    match (t.children id)[i]? with
    | some child => t.descend? child path
    | none => none

/-! ### Building -/

/-- A tree that is only a root, with the texts of a token stream. -/
def ofSymbols (symbols : SymbolTable) : Tree :=
  ⟨#[{ kind := .compilationUnit, span := .empty .start }], symbols⟩

/-- Change the node with a given number, if there is one. -/
def modify (t : Tree) (id : NodeId) (f : Node → Node) : Tree :=
  match t with
  | ⟨nodes, symbols⟩ => ⟨nodes.modify id.index f, symbols⟩

/-- Make a node without links; its number is the size the tree had. -/
def push (t : Tree) (kind : NodeKind) (span : Span) : NodeId × Tree :=
  match t with
  | ⟨nodes, symbols⟩ => (⟨nodes.size⟩, ⟨nodes.push { kind, span }, symbols⟩)

/-- Make `child` the last child of `parent`. -/
def attach (t : Tree) (parent child : NodeId) : Tree :=
  let last := (t.node parent).lastChild
  let t := t.modify child fun n => { n with parent := some parent }
  let t := match last with
    | some last => t.modify last fun n => { n with nextSibling := some child }
    | none => t.modify parent fun n => { n with firstChild := some child }
  t.modify parent fun n => { n with lastChild := some child }

def setSpan (t : Tree) (id : NodeId) (span : Span) : Tree :=
  t.modify id fun n => { n with span }

def setKind (t : Tree) (id : NodeId) (kind : NodeKind) : Tree :=
  t.modify id fun n => { n with kind }

/-- Enter a text into the tree's table of texts. -/
def intern (t : Tree) (text : String) : Tree :=
  match t with
  | ⟨nodes, symbols⟩ => ⟨nodes, (symbols.intern text).2⟩

@[simp] theorem size_modify (t : Tree) (id : NodeId) (f : Node → Node) :
    (t.modify id f).size = t.size := by
  simp [modify, size]

@[simp] theorem size_push (t : Tree) (kind : NodeKind) (span : Span) :
    (t.push kind span).2.size = t.size + 1 := by
  simp [push, size]

@[simp] theorem size_attach (t : Tree) (parent child : NodeId) :
    (t.attach parent child).size = t.size := by
  cases h : (t.node parent).lastChild <;> simp [attach, h]

end Tree

end GoloSyntax
