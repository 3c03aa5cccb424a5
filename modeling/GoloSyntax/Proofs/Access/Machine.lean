import GoloSyntax.Grammar.Parse

/-! # Reading tokens by index

`Reading.run` carries a program out on the list of the tokens that are left, which ends in front of
the first end of input.  Here the same programs are carried out on the whole array of tokens with an
index into it, as a reader does that never cuts the array.  Nothing keeps the index away from what
stands behind an end of input: reading a token adds one to it, whatever the token is, and looking
ahead takes the last token for every index beyond it (`State.peek?`).

An access outside of the array has no outcome, and neither has a step that is not permitted at the
token and with the tree that it finds.  What is permitted is a parameter of the machine, so that
other accesses than those to the tokens can be watched as well.

An outcome comes with the state it was reached in, an error too; `State.furthest` is the largest
index that there has been.
-/
namespace GoloSyntax

/-- The tokens, with an end of input behind the last one if that is none itself. -/
def TokenStream.ended (stream : TokenStream) : Array Token :=
  if stream.tokens.back?.any (·.kind == .endOfInput) then stream.tokens
  else stream.tokens.push (.endAt ((stream.tokens.back?.map (·.span.stop)).getD .start))

namespace Indexed

/-- What stays the same while an array of tokens is read. -/
structure Context where
  tokens : Array Token
  maxDepth : Nat
  maxNodes : Nat
  /-- The bound on repetitions. -/
  rounds : Nat
  permits : Step → Token → Tree → Bool

/-- Where reading stands, and what has been built so far. -/
structure State where
  current : Nat
  furthest : Nat
  lastEnd : Position
  tree : Tree

/-- None if something was accessed that is not there. -/
abbrev Outcome (α : Type) := Option (Except ParseError α × State)

/-- Go on with an answer. -/
def Outcome.andThen {α β : Type} (x : Outcome α) (f : α → State → Outcome β) : Outcome β :=
  match x with
  | none => none
  | some (.error e, s) => some (.error e, s)
  | some (.ok a, s) => f a s

variable (c : Context)

/-- The token so many places behind the next one; behind the last token, the last one. -/
def State.peek? (s : State) (k : Nat) : Option Token :=
  c.tokens[min (s.current + k) (c.tokens.size - 1)]?

/-- Read a token, whatever it is. -/
def State.advance (s : State) : Option State := do
  let token ← s.peek? c 0
  let current := if s.current < c.tokens.size then s.current + 1 else s.current
  let lastEnd :=
    if token.kind = .newline ∨ token.kind = .endOfInput then s.lastEnd else token.span.stop
  some ⟨current, max s.furthest current, lastEnd, s.tree⟩

/-- Read line feeds as long as there are any, at most `n - 1`. -/
def State.skipNewlines : Nat → State → Option State
  | 0, _ => none
  | n + 1, s => do
    let token ← s.peek? c 0
    if token.kind = .newline then State.skipNewlines n (← s.advance c) else some s

/-- Go by the next token. -/
def State.look {α : Type} (s : State) (f : Token → Outcome α) : Outcome α := (s.peek? c 0).bind f

/-- An error at the next token. -/
def State.fail {α : Type} (s : State) (fault : ParseFault) : Outcome α :=
  s.look c fun token => some (.error ⟨fault, token.span.start⟩, s)

/-- Carry out one step at a token in a frame that starts at `start`. -/
def act (start : Position) (token : Token) (s : State) :
    (action : Step) → Outcome action.Answer
  | .look => some (.ok (token.lexeme s.tree.symbols), s)
  | .lookBehind => (s.peek? c 1).bind fun behind => some (.ok behind.kind, s)
  | .advance => (s.advance c).bind fun s => some (.ok (), s)
  | .skipNewlines => (State.skipNewlines c c.tokens.size s).bind fun s => some (.ok (), s)
  | .openNode kind =>
    if s.tree.size ≥ c.maxNodes then s.fail c (.tooManyNodes s.tree.size c.maxNodes)
    else
      let (id, tree) := s.tree.push kind (.empty start)
      some (.ok id, { s with tree })
  | .closeNode id => some (.ok (), { s with tree := s.tree.setSpan id ⟨start, s.lastEnd⟩ })
  | .setKind id kind => some (.ok (), { s with tree := s.tree.setKind id kind })
  | .attach parent child => some (.ok (), { s with tree := s.tree.attach parent child })
  | .intern text => some (.ok (), { s with tree := s.tree.intern text })
  | .reject expected => s.fail c (.unexpected expected token.kind (token.text? s.tree.symbols))
  | .refuseLiteral fault => s.fail c fault

/-- Carry out one step, if it is permitted. -/
def perform (start : Position) (action : Step) (s : State) : Outcome action.Answer :=
  s.look c fun token =>
    if c.permits action token s.tree then act c start token s action else none

/-- Repeat a round at most `n` times. -/
def iterate {σ β : Type} (round : σ → State → Outcome (Round σ β)) :
    Nat → σ → State → Outcome β
  | 0, _, s => s.look c fun token => s.fail c (.stalled token.kind)
  | n + 1, x, s => (round x s).andThen fun r s =>
    match r with
    | .again x => iterate round n x s
    | .stop answer => some (.ok answer, s)

/-- Carry out a program in a frame that starts at `start`. -/
def run (enter : Rule → Position → State → Outcome NodeId) :
    {α : Type} → Reading α → Position → State → Outcome α
  | _, .done answer, _, s => some (.ok answer, s)
  | _, .step action next, start, s =>
    (perform c start action s).andThen fun x s => run enter (next x) start s
  | _, .call rule next, start, s =>
    (enter rule start s).andThen fun id s => run enter (next id) start s
  | _, .frame body next, start, s =>
    s.look c fun token =>
      (run enter body token.span.start s).andThen fun x s => run enter (next x) start s
  | _, .repeat round state next, start, s =>
    (iterate c (fun x s => run enter (round x) start s) (c.rounds + 1) state s).andThen
      fun x s => run enter (next x) start s

/-- Carry out a rule with so many levels of nesting left. -/
def enter : Nat → Rule → Position → State → Outcome NodeId
  | 0, _, _, s => s.fail c (.tooDeep c.maxDepth)
  | levels + 1, rule, start, s =>
    s.look c fun token =>
      run c (enter levels) rule.reading (if rule.inheritsStart then start else token.span.start) s

/-- What stays the same while a token stream is read. -/
def Context.ofStream (permits : Step → Token → Tree → Bool) (stream : TokenStream)
    (limits : Limits) : Context :=
  ⟨stream.ended, limits.maxNestingDepth, limits.maxTreeNodes, stream.size, permits⟩

/-- Read a token stream as one compilation unit. -/
def parse (permits : Step → Token → Tree → Bool) (stream : TokenStream)
    (limits : Limits) : Outcome Tree :=
  let c := Context.ofStream permits stream limits
  (enter c limits.maxNestingDepth .compilationUnit .start
    ⟨0, 0, .start, .ofSymbols stream.symbols⟩).andThen fun root s =>
      s.look c fun stop =>
        if permits (.closeNode root) stop s.tree then
          some (.ok (s.tree.setSpan root ⟨.start, stop.span.stop⟩), s)
        else none

end Indexed

end GoloSyntax
