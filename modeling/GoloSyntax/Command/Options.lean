import GoloSyntax.Number.Decimal

/-! # Command line options

The general form of command lines. An option has a long name written behind two hyphens
and perhaps a letter written behind one; some options take a value. The value follows as
the next argument, which must not look like an option itself, or behind an equals sign,
or, for a letter, directly behind it. Letters without a value may be run together behind
one hyphen. Two hyphens alone make everything behind them a plain argument, and a single
hyphen is a plain argument, too. Only options that are counted may be given more than once
on one level of a command line.

`readLevel` goes through the arguments from left to right, and the first thing out of
order, or the first request for help, ends the reading. A plain argument may take over the
rest of the command line.
-/

namespace GoloSyntax.Command

/-- The form of an option's value. -/
inductive ValueForm where
  /-- Any text. -/
  | text
  /-- A path, which must not be empty. -/
  | path
  /-- A number that `readNumber?` knows. -/
  | number
deriving DecidableEq, Repr, Inhabited

/-- What an option does with its occurrences. -/
inductive OptionKind where
  /-- Given or not. -/
  | flag
  /-- Given any number of times. -/
  | counted
  /-- Given with a value. -/
  | valued (form : ValueForm)
deriving DecidableEq, Repr, Inhabited

/-- An option that a command knows. -/
structure OptionSpec where
  long : String
  short : Option Char := none
  kind : OptionKind
deriving DecidableEq, Repr, Inhabited

/-- What may stand on one level of a command line: options, and plain arguments up to some
number. -/
structure LevelSpec where
  options : List OptionSpec
  /-- The greatest number of plain arguments, if there is one. -/
  maxPlain : Option Nat
deriving DecidableEq, Repr, Inhabited

/-- Why a command line was not carried out. -/
inductive Refusal where
  /-- It asked for help. -/
  | help
  /-- It is not in order. -/
  | usage
deriving DecidableEq, Repr, Inhabited

/-- A number: digits with an optional plus sign, below `2 ^ 64`. -/
def readNumber? (text : String) : Option Nat :=
  let digits := match text.toList with
    | '+' :: cs => cs
    | cs => cs
  if digits.isEmpty || !digits.all Char.isDigit then none
  else
    let n := digitsValue digits
    if n < Nat.pow 2 64 then some n else none

/-- Whether a value has the form. -/
def ValueForm.accepts : ValueForm → String → Bool
  | text, _ => true
  | path, value => value ≠ ""
  | number, value => (readNumber? value).isSome

/-- Whether an option may occur with the value. An option that takes none occurs with an
empty one. -/
def OptionKind.accepts : OptionKind → String → Bool
  | valued form, value => form.accepts value
  | _, value => value = ""

/-- What has been read of one level. -/
structure Level where
  /-- The occurrences of options, by long name, the last one first. -/
  occurrences : List (String × String) := []
  /-- The plain arguments, the last one first. -/
  plain : List String := []
deriving DecidableEq, Repr, Inhabited

namespace Level

/-- Whether an option was given. -/
def has (l : Level) (long : String) : Bool := (l.occurrences.lookup long).isSome

/-- The value given to an option. -/
def value? (l : Level) (long : String) : Option String := l.occurrences.lookup long

/-- How often an option was given. -/
def count (l : Level) (long : String) : Nat := (l.occurrences.filter (·.1 == long)).length

/-- The plain arguments in order. -/
def arguments (l : Level) : List String := l.plain.reverse

/-- Note an occurrence of an option, which must not be a second one unless it is counted,
and whose value must have the form that the option asks for. -/
def note (l : Level) (spec : OptionSpec) (value : String) : Except Refusal Level :=
  if (spec.kind ≠ .counted ∧ l.has spec.long) ∨ ¬ spec.kind.accepts value then .error .usage
  else .ok { l with occurrences := (spec.long, value) :: l.occurrences }

/-- Note a plain argument. Plain arguments are paths and must not be empty, and there must
not be too many of them. -/
def notePlain (spec : LevelSpec) (l : Level) (argument : String) : Except Refusal Level :=
  if argument = "" ∨ spec.maxPlain.any (· ≤ l.plain.length) then .error .usage
  else .ok { l with plain := argument :: l.plain }

end Level

/-- A level as read so far, when a value that stood as an argument of its own may still
have to be refused. Nothing else on the level is read before that has been settled, but a
command that takes over the rest of the line is heard first. -/
abbrev Unsettled := Except Refusal Level

/-- Whether an argument looks like an option rather than a value. -/
def looksLikeOption (argument : String) : Bool :=
  match argument.toList with
  | ['-'] => false
  | '-' :: _ => true
  | _ => false

/-- Leave out an equals sign at the beginning. -/
def dropEquals : List Char → List Char
  | '=' :: cs => cs
  | cs => cs

/-- Note an option with the next argument as its value; the answer holds the arguments
behind it. -/
def noteNext (l : Level) (spec : OptionSpec) :
    List String → Except Refusal (Unsettled × List String)
  | value :: rest =>
    if looksLikeOption value then .error .usage else .ok (l.note spec value, rest)
  | [] => .error .usage

/-- Note the options given by letters behind one hyphen; the last of them may take its value
from the arguments that follow. -/
def noteLetters (specs : List OptionSpec) (rest : List String) :
    List Char → Level → Except Refusal (Unsettled × List String)
  | [], l => .ok (.ok l, rest)
  | c :: cs, l =>
    if c = 'h' then .error .help
    else
      match specs.find? (·.short == some c) with
      | none => .error .usage
      | some spec =>
        match spec.kind, cs with
        | .valued _, [] => noteNext l spec rest
        | .valued _, cs => do
          return (.ok (← l.note spec (String.ofList (dropEquals cs))), rest)
        | _, cs => do noteLetters specs rest cs (← l.note spec "")

/-- Note an option given by its long name, which may take its value from the arguments
that follow. -/
def noteLong (specs : List OptionSpec) (rest : List String) (cs : List Char) (l : Level) :
    Except Refusal (Unsettled × List String) :=
  let name := String.ofList (cs.takeWhile (· != '='))
  let attached := cs.dropWhile (· != '=')
  if name = "help" ∧ attached = [] then .error .help
  else
    match specs.find? (·.long == name) with
    | none => .error .usage
    | some spec =>
      match spec.kind, attached with
      | .valued _, [] => noteNext l spec rest
      | .valued _, attached => do
        return (.ok (← l.note spec (String.ofList (dropEquals attached))), rest)
      | _, [] => do return (.ok (← l.note spec ""), rest)
      | _, _ => .error .usage

/-- Read one level of a command line; `n` bounds the number of arguments. The plain
arguments are noted in order, unless `takeOver` takes the first of them with all that
follows. -/
def readLevel {β : Type} (spec : LevelSpec)
    (takeOver : String → List String → Option (Except Refusal β)) :
    Nat → List String → Unsettled → Except Refusal (Level × Option β)
  | 0, _, l => do return (← l, none)
  | _ + 1, [], l => do return (← l, none)
  | n + 1, argument :: rest, l =>
    match argument.toList with
    | ['-', '-'] => do return (← rest.foldlM (Level.notePlain spec) (← l), none)
    | '-' :: '-' :: cs => do
      let (l, rest) ← noteLong spec.options rest cs (← l)
      readLevel spec takeOver n rest l
    | '-' :: c :: cs => do
      let (l, rest) ← noteLetters spec.options rest (c :: cs) (← l)
      readLevel spec takeOver n rest l
    | _ =>
      match takeOver argument rest with
      | none => do readLevel spec takeOver n rest (.ok (← (← l).notePlain spec argument))
      | some below => do
        let b ← below
        return (← l, some b)

end GoloSyntax.Command
