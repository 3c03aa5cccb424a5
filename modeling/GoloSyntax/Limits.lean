/-! # Resource limits

`Limits` bounds the work spent on one source text: its size, its tokens, the
length of its words, strings and comments, the nesting of grammar rules and the
number of tree nodes. The limits are used as they are; `Limits.validate?` names the
first one outside its accepted range, in a fixed order of the limits.
-/

namespace GoloSyntax

/-- What one parse may use up. Lengths are bytes of UTF-8. -/
structure Limits where
  maxInputSize : Nat := 10000000
  /-- Tokens of one source, the end of input included. -/
  maxTokenCount : Nat := 1000000
  maxIdentifierLength : Nat := 1000
  /-- Delimiters included. -/
  maxStringLength : Nat := 10000000
  maxCommentLength : Nat := 100000
  /-- Grammar rules entered inside one another. -/
  maxNestingDepth : Nat := 256
  maxTreeNodes : Nat := 1000000
deriving DecidableEq, Repr, Inhabited

/-- The name of one limit, as settings files spell it. -/
inductive LimitName where
  | inputSize
  | tokenCount
  | identifierLength
  | stringLength
  | commentLength
  | nestingDepth
  | treeNodes
deriving DecidableEq, Repr, Inhabited

namespace LimitName

/-- Every limit, in the order in which they are checked. -/
def all : List LimitName :=
  [inputSize, tokenCount, identifierLength, stringLength, commentLength, nestingDepth, treeNodes]

/-- The key of the limit in a settings file. -/
def key : LimitName → String
  | inputSize => "max_input_size"
  | tokenCount => "max_token_count"
  | identifierLength => "max_identifier_length"
  | stringLength => "max_string_length"
  | commentLength => "max_comment_length"
  | nestingDepth => "max_nesting_depth"
  | treeNodes => "max_ast_nodes"

/-- The largest value accepted for the limit. -/
def ceiling : LimitName → Nat
  | inputSize => 100000000
  | tokenCount => 100000000
  | identifierLength => 100000
  | stringLength => 100000000
  | commentLength => 100000000
  | nestingDepth => 4096
  | treeNodes => 10000000

/-- The limit with a given key. -/
def ofKey? (key : String) : Option LimitName := all.find? (·.key == key)

end LimitName

/-- A limit outside the range from one to its ceiling. -/
structure LimitError where
  name : LimitName
  value : Nat
deriving DecidableEq, Repr

namespace LimitError

/-- The largest value that would have been accepted. -/
def max (e : LimitError) : Nat := e.name.ceiling

def message (e : LimitError) : String :=
  "Invalid limit '" ++ e.name.key ++ "': " ++ toString e.value ++
    " (must be between 1 and " ++ toString e.max ++ ")"

end LimitError

namespace Limits

/-- The value of a limit by name. -/
def get (l : Limits) : LimitName → Nat
  | .inputSize => l.maxInputSize
  | .tokenCount => l.maxTokenCount
  | .identifierLength => l.maxIdentifierLength
  | .stringLength => l.maxStringLength
  | .commentLength => l.maxCommentLength
  | .nestingDepth => l.maxNestingDepth
  | .treeNodes => l.maxTreeNodes

/-- Give one limit a new value. -/
def set (l : Limits) (name : LimitName) (value : Nat) : Limits :=
  match name with
  | .inputSize => { l with maxInputSize := value }
  | .tokenCount => { l with maxTokenCount := value }
  | .identifierLength => { l with maxIdentifierLength := value }
  | .stringLength => { l with maxStringLength := value }
  | .commentLength => { l with maxCommentLength := value }
  | .nestingDepth => { l with maxNestingDepth := value }
  | .treeNodes => { l with maxTreeNodes := value }

@[simp] theorem get_set_self (l : Limits) (name : LimitName) (value : Nat) :
    (l.set name value).get name = value := by
  cases name <;> rfl

theorem get_set_of_ne (l : Limits) {name other : LimitName} (value : Nat) (h : other ≠ name) :
    (l.set name value).get other = l.get other := by
  cases name <;> cases other <;> first | rfl | exact absurd rfl h

/-- Whether a limit lies between one and its ceiling. -/
def accepts (l : Limits) (name : LimitName) : Bool :=
  0 < l.get name && l.get name ≤ name.ceiling

/-- The first limit out of range, or `none` if every limit is positive and not
absurdly large. -/
def validate? (l : Limits) : Option LimitError :=
  (LimitName.all.find? fun name => !l.accepts name).map fun name => ⟨name, l.get name⟩

/-- Valid limits are all accepted. -/
theorem accepts_of_validate {l : Limits} (h : l.validate? = none) (name : LimitName) :
    l.accepts name := by
  have hmem : name ∈ LimitName.all := by cases name <;> decide
  simpa using List.find?_eq_none.mp (Option.map_eq_none_iff.mp h) name hmem

theorem get_le_ceiling {l : Limits} {name : LimitName} (h : l.accepts name) :
    l.get name ≤ name.ceiling := by
  rw [accepts, Bool.and_eq_true, decide_eq_true_eq, decide_eq_true_eq] at h
  exact h.2

/-- Bytes of stack a worker is given: one mebibyte, and four kibibytes for each level
of nesting. -/
def stackSize (l : Limits) : Nat :=
  1024 * 1024 + l.maxNestingDepth * (4 * 1024)

end Limits

end GoloSyntax
