import GoloSyntax.Grammar.Fault
import GoloSyntax.Grammar.Rule
import GoloSyntax.Token.Basic

/-! # Reading programs

The rules of the grammar are written as programs over a few `Step`s: look at the next
token, read it, make a node, attach it, give up. A `Reading α` is such a program with
an answer in `α`. Besides steps it may call a rule, open a frame, and repeat a reading.

A program never sees a position. The start of a construct is kept by the frame it is
read in, its end is that of the last token read, and a program that gives up is told
neither where it stands nor what it found; so what is read depends on the kinds and the
texts of tokens only, and where things are is settled in one place, `Reading.run`.

A program is plain data with continuations: a property that every step keeps is
proved once, by induction over `Reading`, and then holds of every rule.

`Reading.run` carries a program out. Calls go to a function given to it, and
`Rule.enter` ties the knot: a rule at the deepest level allowed may not call any other,
so rules recurse on the levels that are left.
-/

namespace GoloSyntax

/-- One thing that a reading program can do. -/
inductive Step where
  /-- Look at the next token, the end of input if there is none. -/
  | look
  /-- Look at the kind of the token behind it. -/
  | lookBehind
  /-- Read the next token. -/
  | advance
  /-- Read line feeds as long as there are any. -/
  | skipNewlines
  /-- Make a node that starts where the frame does. -/
  | openNode (kind : NodeKind)
  /-- End a node with the last token read. -/
  | closeNode (id : NodeId)
  | setKind (id : NodeId) (kind : NodeKind)
  /-- Make `child` the last child of `parent`. -/
  | attach (parent child : NodeId)
  /-- Enter a name made from several tokens into the table of texts. -/
  | intern (text : String)
  /-- Give up because of the next token. -/
  | reject (expected : List Expected)
  /-- Give up because the next token is a literal without a value. -/
  | refuseLiteral (fault : ParseFault)
deriving Repr

/-- What a step answers. -/
def Step.Answer : Step → Type
  | .look => Lexeme
  | .lookBehind => TokenKind
  | .openNode _ => NodeId
  | .reject _ | .refuseLiteral _ => Empty
  | .advance | .skipNewlines | .closeNode _ | .setKind .. | .attach .. | .intern _ => Unit

/-- How one round of a repetition ends. -/
inductive Round (σ β : Type) where
  /-- Go on with another round. -/
  | again (state : σ)
  /-- End the repetition. -/
  | stop (answer : β)

/-- A reading program with an answer in `α`. -/
inductive Reading : Type → Type 1 where
  | done {α : Type} (answer : α) : Reading α
  | step {α : Type} (s : Step) (next : s.Answer → Reading α) : Reading α
  /-- Read a construct by its rule, one level deeper. -/
  | call {α : Type} (rule : Rule) (next : NodeId → Reading α) : Reading α
  /-- Read something that starts at the next token, on the same level. -/
  | frame {α β : Type} (body : Reading β) (next : β → Reading α) : Reading α
  /-- Repeat a reading until it stops. -/
  | repeat {α β σ : Type} (round : σ → Reading (Round σ β)) (state : σ)
      (next : β → Reading α) : Reading α

namespace Reading

/-- One program after the other. -/
def bind {α β : Type} : Reading α → (α → Reading β) → Reading β
  | .done a, f => f a
  | .step s next, f => .step s fun x => (next x).bind f
  | .call rule next, f => .call rule fun x => (next x).bind f
  | .frame body next, f => .frame body fun x => (next x).bind f
  | .repeat round state next, f => .repeat round state fun x => (next x).bind f

instance : Monad Reading where
  pure := .done
  bind := .bind

/-! ### Carrying a program out -/

/-- What stays the same while a token list is read. -/
structure Context where
  /-- The token that stands behind all others. -/
  endToken : Token
  maxDepth : Nat
  maxNodes : Nat
  /-- At least the number of tokens, which bounds every repetition. -/
  tokenCount : Nat

/-- What has been read and built so far. -/
structure State where
  /-- The tokens still to be read, the end of input not among them. -/
  rest : List Token
  /-- The end of the last token read, line feeds left out. -/
  lastEnd : Position
  tree : Tree

variable (c : Context)

/-- The next token. -/
def State.current (s : State) : Token := s.rest.head?.getD c.endToken

/-- An error at the next token. -/
def State.fail {α : Type} (s : State) (fault : ParseFault) : Except ParseError α :=
  .error ⟨fault, (s.current c).span.start⟩

/-- Read a token: only tokens other than line feeds move the end of what was read. -/
def State.advance : State → State
  | ⟨[], lastEnd, tree⟩ => ⟨[], lastEnd, tree⟩
  | ⟨token :: rest, lastEnd, tree⟩ =>
    ⟨rest, if token.kind = .newline then lastEnd else token.span.stop, tree⟩

/-- Carry out one step in a frame that starts at `start`. -/
def perform (start : Position) : (step : Step) → State → Except ParseError (step.Answer × State)
  | .look, s => .ok ((s.current c).lexeme s.tree.symbols, s)
  | .lookBehind, s => .ok (((s.rest.drop 1).head?.getD c.endToken).kind, s)
  | .advance, s => .ok ((), s.advance)
  | .skipNewlines, ⟨rest, lastEnd, tree⟩ =>
    .ok ((), ⟨rest.dropWhile (·.kind = .newline), lastEnd, tree⟩)
  | .openNode kind, s =>
    if s.tree.size ≥ c.maxNodes then s.fail c (.tooManyNodes s.tree.size c.maxNodes)
    else
      match s with
      | ⟨rest, lastEnd, tree⟩ =>
        let (id, tree) := tree.push kind (.empty start)
        .ok (id, ⟨rest, lastEnd, tree⟩)
  | .closeNode id, ⟨rest, lastEnd, tree⟩ =>
    .ok ((), ⟨rest, lastEnd, tree.setSpan id ⟨start, lastEnd⟩⟩)
  | .setKind id kind, ⟨rest, lastEnd, tree⟩ => .ok ((), ⟨rest, lastEnd, tree.setKind id kind⟩)
  | .attach parent child, ⟨rest, lastEnd, tree⟩ =>
    .ok ((), ⟨rest, lastEnd, tree.attach parent child⟩)
  | .intern text, ⟨rest, lastEnd, tree⟩ => .ok ((), ⟨rest, lastEnd, tree.intern text⟩)
  | .reject expected, s =>
    s.fail c (.unexpected expected (s.current c).kind ((s.current c).text? s.tree.symbols))
  | .refuseLiteral fault, s => s.fail c fault

/-- Repeat a round at most `n` times. -/
def iterate {σ β : Type} (round : σ → State → Except ParseError (Round σ β × State)) :
    Nat → σ → State → Except ParseError (β × State)
  | 0, _, s => s.fail c (.stalled (s.current c).kind)
  | n + 1, x, s =>
    match round x s with
    | .error e => .error e
    | .ok (.stop answer, s) => .ok (answer, s)
    | .ok (.again x, s) => iterate round n x s

/-- Carry out a program in a frame that starts at `start`; `enter` carries out the
calls. -/
def run (enter : Rule → Position → State → Except ParseError (NodeId × State)) :
    {α : Type} → Reading α → Position → State → Except ParseError (α × State)
  | _, .done answer, _, s => .ok (answer, s)
  | _, .step action next, start, s =>
    match perform c start action s with
    | .error e => .error e
    | .ok (x, s) => run enter (next x) start s
  | _, .call rule next, start, s =>
    match enter rule start s with
    | .error e => .error e
    | .ok (id, s) => run enter (next id) start s
  | _, .frame body next, start, s =>
    match run enter body (s.current c).span.start s with
    | .error e => .error e
    | .ok (x, s) => run enter (next x) start s
  | _, .repeat round state next, start, s =>
    match iterate c (fun x s => run enter (round x) start s) (c.tokenCount + 1) state s with
    | .error e => .error e
    | .ok (x, s) => run enter (next x) start s

/-! ### Steps as programs -/

/-- The next token. -/
def look : Reading Lexeme := .step .look .done

/-- The kind of the next token. -/
def peek : Reading TokenKind := do return (← look).kind

/-- The kind of the token behind the next one. -/
def peekBehind : Reading TokenKind := .step .lookBehind .done

def advance : Reading Unit := .step .advance .done

def skipNewlines : Reading Unit := .step .skipNewlines .done

def openNode (kind : NodeKind) : Reading NodeId := .step (.openNode kind) .done

/-- End a node and answer it. -/
def closeNode (id : NodeId) : Reading NodeId := .step (.closeNode id) fun _ => .done id

def setKind (id : NodeId) (kind : NodeKind) : Reading Unit := .step (.setKind id kind) .done

def attach (parent child : NodeId) : Reading Unit := .step (.attach parent child) .done

def intern (text : String) : Reading Unit := .step (.intern text) .done

def reject {α : Type} (expected : List Expected) : Reading α :=
  .step (.reject expected) Empty.elim

def refuseLiteral {α : Type} (fault : ParseFault) : Reading α :=
  .step (.refuseLiteral fault) Empty.elim

/-- The construct of a rule, one level deeper. -/
def enter (rule : Rule) : Reading NodeId := .call rule .done

/-- A construct of its own on the same level. -/
def framed {β : Type} (body : Reading β) : Reading β := .frame body .done

/-- Repeat a reading until it stops. -/
def repeating {σ β : Type} (state : σ) (round : σ → Reading (Round σ β)) : Reading β :=
  .repeat round state .done

/-- Repeat a reading that carries no state until it stops. -/
def repeatUntil {β : Type} (round : Reading (Round Unit β)) : Reading β :=
  repeating () fun _ => round

/-! ### Phrases shared by many rules -/

/-- Read a token of one kind. -/
def expect (kind : TokenKind) : Reading Unit := do
  if (← peek) = kind then advance else reject [.token kind]

/-- Read a token of one kind if it comes next. -/
def accept (kind : TokenKind) : Reading Bool := do
  if (← peek) = kind then
    advance
    return true
  else return false

/-- Read an identifier. -/
def identifier (role : NameRole) : Reading String := do
  match ← look with
  | ⟨.identifier, some text⟩ =>
    advance
    return text
  | _ => reject [.name role]

/-- Read identifiers joined by points as one name. A point that no identifier follows is
left alone. -/
def qualifiedName (role : NameRole) : Reading String := do
  let first ← identifier role
  if (← peek) = .mark .dot then
    let name ← repeating first fun name => do
      if (← peek) = .mark .dot then
        if (← peekBehind) = .identifier then
          advance
          let segment ← identifier .plain
          return .again (name ++ "." ++ segment)
        else return .stop name
      else return .stop name
    intern name
    return name
  else return first

/-- A node made of the whole frame, without children. -/
def leaf (kind : NodeKind) : Reading NodeId := do
  let id ← openNode kind
  closeNode id

/-- Read the construct of a rule and make it the last child of a node. -/
def child (parent : NodeId) (rule : Rule) : Reading Unit := do
  let id ← enter rule
  attach parent id

/-- What ends a statement or declaration: line feeds, or what comes behind the last one,
a closing brace within braces and the end of input outside. -/
def terminator (withinBraces : Bool) : Reading Unit := do
  match ← peek with
  | .newline => skipNewlines
  | .endOfInput => return ()
  | .mark .rightBrace =>
    if withinBraces then return () else reject [.token .newline, .token .endOfInput]
  | _ =>
    if withinBraces then reject [.token .newline, .token (.mark .rightBrace)]
    else reject [.token .newline, .token .endOfInput]

end Reading

end GoloSyntax
