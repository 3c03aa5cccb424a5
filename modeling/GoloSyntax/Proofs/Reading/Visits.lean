import GoloSyntax.Proofs.Reading.Parse

/-! # What is visited

To say that a rule gets to see a token, the programs are carried out here with every rule noted
that is entered on the way (`Rule.enterNoting`).  Noting changes nothing (`outcome_enterNoting`).
A visit lies ahead of where parsing began, and if what comes of it is an error, that error is the
end of parsing (`ahead_of_visits`): nothing ever goes on from a failure.
-/
namespace GoloSyntax

namespace Reading

variable {α β σ : Type}

/-- A rule is carried out from a state, in a frame that starts at `start` and with so many levels of
nesting left below it. -/
structure Visit where
  levels : Nat
  rule : Rule
  start : Position
  state : State

/-- What comes of a visit. -/
def Visit.outcome (c : Context) (v : Visit) : Except ParseError (NodeId × State) :=
  run c (Rule.enter c v.levels) v.rule.reading v.start v.state

/-- An outcome and the visits on the way to it. -/
structure Noted (α : Type) where
  visits : List Visit
  outcome : Except ParseError α

def Noted.bind (x : Noted α) (f : α → Noted β) : Noted β :=
  match x.outcome with
  | .error e => ⟨x.visits, .error e⟩
  | .ok a => ⟨x.visits ++ (f a).visits, (f a).outcome⟩

variable (c : Context)

/-- Repeat a round like `iterate`, with the visits of every round noted. -/
def iterateNoting (round : σ → State → Noted (Round σ β × State)) :
    Nat → σ → State → Noted (β × State)
  | 0, _, s => ⟨[], s.fail c (.stalled (s.current c).kind)⟩
  | n + 1, x, s => (round x s).bind fun r =>
    match r with
    | (.again y, s) => iterateNoting round n y s
    | (.stop a, s) => ⟨[], .ok (a, s)⟩

/-- Carry out a program like `run`, with every visit noted. -/
def runNoting (enter : Rule → Position → State → Noted (NodeId × State)) :
    {α : Type} → Reading α → Position → State → Noted (α × State)
  | _, .done answer, _, s => ⟨[], .ok (answer, s)⟩
  | _, .step action next, start, s =>
    (⟨[], perform c start action s⟩ : Noted _).bind fun r => runNoting enter (next r.1) start r.2
  | _, .call rule next, start, s =>
    (enter rule start s).bind fun r => runNoting enter (next r.1) start r.2
  | _, .frame body next, start, s =>
    (runNoting enter body (s.current c).span.start s).bind fun r =>
      runNoting enter (next r.1) start r.2
  | _, .repeat round state next, start, s =>
    (iterateNoting c (fun x s => runNoting enter (round x) start s) (c.tokenCount + 1) state s).bind
      fun r => runNoting enter (next r.1) start r.2

end Reading

open Reading

/-- Carry out a rule like `Rule.enter`, with the visit noted and all visits below it.  A rule for
which there is no level left is not visited. -/
def Rule.enterNoting (c : Context) : Nat → Rule → Position → State → Noted (NodeId × State)
  | 0, _, _, s => ⟨[], s.fail c (.tooDeep c.maxDepth)⟩
  | levels + 1, rule, start, s =>
    let start := if rule.inheritsStart then start else (s.current c).span.start
    let below := runNoting c (Rule.enterNoting c levels) rule.reading start s
    ⟨⟨levels, rule, start, s⟩ :: below.visits, below.outcome⟩

namespace Reading

variable {α β σ : Type} {c : Context} {s s' : State} {start : Position}

theorem Noted.outcome_bind (x : Noted α) (f : α → Noted β) :
    (x.bind f).outcome = x.outcome.bind fun a => (f a).outcome := by
  unfold Noted.bind
  cases x.outcome <;> rfl

/-! ## Noting changes nothing -/

theorem outcome_iterateNoting {round : σ → State → Noted (Round σ β × State)}
    {round' : σ → State → Except ParseError (Round σ β × State)}
    (hround : ∀ x s, (round x s).outcome = round' x s) (n : Nat) (x : σ) (s : State) :
    (iterateNoting c round n x s).outcome = iterate c round' n x s := by
  induction n generalizing x s with
  | zero => rfl
  | succ n ih =>
    rw [iterateNoting, Noted.outcome_bind, hround, iterate_succ]
    refine congrArg _ (funext fun r => ?_)
    rcases r with ⟨y | a, s⟩
    · exact ih y s
    · rfl

theorem outcome_runNoting {enter : Rule → Position → State → Noted (NodeId × State)}
    {enter' : Rule → Position → State → Except ParseError (NodeId × State)}
    (henter : ∀ rule p s, (enter rule p s).outcome = enter' rule p s) (m : Reading α)
    (start : Position) (s : State) :
    (runNoting c enter m start s).outcome = run c enter' m start s := by
  induction m generalizing start s with
  | done a => rfl
  | step action next ih =>
    rw [runNoting, Noted.outcome_bind, run_step]
    exact congrArg _ (funext fun r => ih r.1 start r.2)
  | call rule next ih =>
    rw [runNoting, Noted.outcome_bind, run_call, henter]
    exact congrArg _ (funext fun r => ih r.1 start r.2)
  | frame body next ihbody ih =>
    rw [runNoting, Noted.outcome_bind, run_frame, ihbody]
    exact congrArg _ (funext fun r => ih r.1 start r.2)
  | «repeat» round state next ihround ih =>
    rw [runNoting, Noted.outcome_bind, run_repeat,
      outcome_iterateNoting fun x s => ihround x start s]
    exact congrArg _ (funext fun r => ih r.1 start r.2)

theorem outcome_enterNoting (levels : Nat) (rule : Rule) (p : Position) (s : State) :
    (Rule.enterNoting c levels rule p s).outcome = Rule.enter c levels rule p s := by
  induction levels generalizing rule p s with
  | zero => rfl
  | succ levels ih => exact outcome_runNoting ih rule.reading _ s

/-! ## What is visited -/

/-- A visit lies ahead of a state; unless the rule is that of a collection, its frame starts at the
next token. -/
structure Visit.Ahead (c : Context) (s : State) (v : Visit) : Prop where
  grows : s.Grows v.state
  start : v.rule.inheritsStart = false → v.start = (v.state.current c).span.start

/-- Every visit on the way from a state lies ahead of it, and is the last one if it fails. -/
def Noted.Ahead (c : Context) (s : State) (x : Noted α) : Prop :=
  ∀ v ∈ x.visits, v.Ahead c s ∧ ∀ e, v.outcome c = .error e → x.outcome = .error e

theorem Noted.ahead_of_nil {x : Except ParseError α} : Noted.Ahead c s ⟨[], x⟩ := nofun

theorem Noted.Ahead.bind {x : Noted (α × State)} {f : α × State → Noted β} (hx : x.Ahead c s)
    (hf : ∀ a s', x.outcome = .ok (a, s') → s.Grows s' ∧ (f (a, s')).Ahead c s') :
    (x.bind f).Ahead c s := by
  obtain ⟨visits, e | ⟨a, s'⟩⟩ := x
  · refine fun v hv => ⟨(hx v hv).1, fun e' he => ?_⟩
    cases (hx v hv).2 e' he
    rfl
  · obtain ⟨hgrows, hahead⟩ := hf a s' rfl
    intro v hv
    rcases List.mem_append.mp hv with hv | hv
    -- What has been done before could not go on if it had failed.
    · refine ⟨(hx v hv).1, fun e he => ?_⟩
      cases (hx v hv).2 e he
    · obtain ⟨hv, hfails⟩ := hahead v hv
      exact ⟨⟨hgrows.trans hv.grows, hv.start⟩, hfails⟩

theorem ahead_iterateNoting {round : σ → State → Noted (Round σ β × State)}
    (hround : ∀ x s, (round x s).Ahead c s)
    (hgrows : ∀ x s y s', (round x s).outcome = .ok (y, s') → s.Grows s') (n : Nat) (x : σ)
    (s : State) : (iterateNoting c round n x s).Ahead c s := by
  induction n generalizing x s with
  | zero => exact Noted.ahead_of_nil
  | succ n ih =>
    rw [iterateNoting]
    refine (hround x s).bind fun y s' h => ⟨hgrows x s y s' h, ?_⟩
    cases y with
    | again y => exact ih y s'
    | stop a => exact Noted.ahead_of_nil

theorem ahead_runNoting {enter : Rule → Position → State → Noted (NodeId × State)}
    (henter : ∀ rule p s, (enter rule p s).Ahead c s)
    (hgrows : ∀ {rule p s id s'}, (enter rule p s).outcome = .ok (id, s') → s.Grows s')
    (m : Reading α) (start : Position) (s : State) : (runNoting c enter m start s).Ahead c s := by
  have hrun {β : Type} (m : Reading β) {start : Position} {s s' : State} {b : β}
      (h : (runNoting c enter m start s).outcome = .ok (b, s')) : s.Grows s' := by
    rw [outcome_runNoting (fun rule p s => rfl)] at h
    exact grows_run hgrows m h
  induction m generalizing start s with
  | done a => exact Noted.ahead_of_nil
  | step action next ih =>
    rw [runNoting]
    exact Noted.ahead_of_nil.bind fun x s' h => ⟨grows_perform action h, ih x start s'⟩
  | call rule next ih =>
    rw [runNoting]
    exact (henter rule start s).bind fun id s' h => ⟨hgrows h, ih id start s'⟩
  | frame body next ihbody ih =>
    rw [runNoting]
    exact (ihbody _ s).bind fun x s' h => ⟨hrun body h, ih x start s'⟩
  | «repeat» round state next ihround ih =>
    rw [runNoting]
    refine (ahead_iterateNoting (fun x s => ihround x start s) (fun x s y s' h => hrun _ h) _ state
      s).bind fun x s' h => ⟨?_, ih x start s'⟩
    rw [outcome_iterateNoting fun x s => rfl] at h
    exact grows_iterate (fun x s y s' h => hrun _ h) h

/-- Every visit below a rule lies ahead, and if it fails, so does the rule. -/
theorem ahead_enterNoting (levels : Nat) (rule : Rule) (p : Position) (s : State) :
    (Rule.enterNoting c levels rule p s).Ahead c s := by
  induction levels generalizing rule p s with
  | zero => exact Noted.ahead_of_nil
  | succ levels ih =>
    have hbelow := ahead_runNoting ih (fun {rule p s id s'} h => by
      rw [outcome_enterNoting] at h
      exact grows_enter h) rule.reading
    intro v hv
    rcases List.mem_cons.mp hv with rfl | hv
    · refine ⟨⟨.refl s, fun hrule => if_neg (by simp [hrule])⟩, fun e he => ?_⟩
      rw [← he]
      exact outcome_runNoting (outcome_enterNoting levels) rule.reading _ s
    · exact hbelow _ s v hv

end Reading

open Reading

/-- What is visited while a token stream is parsed. -/
def TokenStream.visits (stream : TokenStream) (limits : Limits) : List Visit :=
  (Rule.enterNoting (stream.context limits) limits.maxNestingDepth .compilationUnit .start
    ⟨(splitAtEnd stream.tokens).1, .start, .ofSymbols stream.symbols⟩).visits

/-- A visit goes on from where parsing begins, and is the end of parsing if it fails. -/
theorem ahead_of_visits {stream : TokenStream} {limits : Limits} {v : Visit}
    (hv : v ∈ stream.visits limits) :
    v.Ahead (stream.context limits)
        ⟨(splitAtEnd stream.tokens).1, .start, .ofSymbols stream.symbols⟩ ∧
      ∀ e, v.outcome (stream.context limits) = .error e → parse stream limits = .error e := by
  obtain ⟨hahead, hfails⟩ := ahead_enterNoting _ _ _ _ v hv
  refine ⟨hahead, fun e he => ?_⟩
  have hfailed := hfails e he
  rw [outcome_enterNoting] at hfailed
  rw [parse_eq, hfailed]

end GoloSyntax
