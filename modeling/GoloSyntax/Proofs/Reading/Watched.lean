import GoloSyntax.Proofs.Reading.Faults

/-! # Every call and every round reads something

Nothing in `Reading.run` stops a repetition but the bound on its rounds.  Here the same programs
are carried out under watch: there is no bound, and a call that comes back, or a round that goes on,
without having read a token is a fault of its own, `ParseFault.stalled`, at once.

No rule of the grammar is ever caught (`enterWatched_eq`).  A rule that succeeds has moved on, every
round but the last one of each repetition has, and so the fault never shows
(`advances_everywhere`).  What a rule reads is known from `Careful`; the induction is over the
program, with the outlook of its first part handed on to the rest.
-/
namespace GoloSyntax

namespace Reading

variable {α β σ : Type}

/-- Repeat a round for as long as it goes on and reads something. -/
def persist (c : Context) (round : σ → State → Except ParseError (Round σ β × State)) (x : σ)
    (s : State) : Except ParseError (β × State) :=
  match round x s with
  | .error e => .error e
  | .ok (.stop answer, s') => .ok (answer, s')
  | .ok (.again y, s') =>
    if s'.rest.length < s.rest.length then persist c round y s'
    else s'.fail c (.stalled (s'.current c).kind)
termination_by s.rest.length

/-- Carry out a program like `Reading.run`, with every call and every round watched. -/
def runWatched (c : Context)
    (enter : Rule → Position → State → Except ParseError (NodeId × State)) :
    {α : Type} → Reading α → Position → State → Except ParseError (α × State)
  | _, .done answer, _, s => .ok (answer, s)
  | _, .step action next, start, s =>
    (perform c start action s).bind fun r => runWatched c enter (next r.1) start r.2
  | _, .call rule next, start, s =>
    (enter rule start s).bind fun r =>
      if r.2.rest.length < s.rest.length then runWatched c enter (next r.1) start r.2
      else r.2.fail c (.stalled (r.2.current c).kind)
  | _, .frame body next, start, s =>
    (runWatched c enter body (s.current c).span.start s).bind fun r =>
      runWatched c enter (next r.1) start r.2
  | _, .repeat round state next, start, s =>
    (persist c (fun x s => runWatched c enter (round x) start s) state s).bind fun r =>
      runWatched c enter (next r.1) start r.2

end Reading

open Reading

/-- Carry out a rule like `Rule.enter`, with every call and every round below it watched. -/
def Rule.enterWatched (c : Context) :
    Nat → Rule → Position → State → Except ParseError (NodeId × State)
  | 0, _, _, s => s.fail c (.tooDeep c.maxDepth)
  | levels + 1, rule, start, s =>
    let start := if rule.inheritsStart then start else (s.current c).span.start
    runWatched c (Rule.enterWatched c levels) rule.reading start s

namespace Reading

variable {α β σ : Type} {c : Context} {s s' : State} {start : Position} {length : Nat}
  {first : List Expected → Prop} {post : α → Outlook → Prop} {o : Outlook}

/-! ## Nobody is caught -/

/-- Equal beginnings that report as they should, and equal continuations wherever these lead. -/
theorem Reports.bind_congr {x x' : Except ParseError (α × State)}
    {f f' : α × State → Except ParseError (β × State)} (hx : Reports c s length first post x)
    (heq : x' = x) (hf : ∀ a o {s'}, s.Grows s' → o.Meets c length s' → post a o →
      f' (a, s') = f (a, s')) : x'.bind f' = x.bind f := by
  subst heq
  cases hx with
  | ok o hgrows hmeets hpost => exact hf _ o hgrows hmeets hpost
  | error => rfl

/-- Rounds that read something are repeated alike with and without a bound that is wide enough. -/
theorem persist_eq {round round' : σ → State → Except ParseError (Round σ β × State)}
    (hround : ∀ x {s}, s.rest.length ≤ c.tokenCount →
      Reports c s s.rest.length first Round.Moves (round x s))
    (heq : ∀ x {s}, s.rest.length ≤ c.tokenCount → round' x s = round x s) {n : Nat} (x : σ)
    (hn : s.rest.length < n) (hcount : s.rest.length ≤ c.tokenCount) :
    persist c round' x s = iterate c round n x s := by
  induction n generalizing x s with
  | zero => omega
  | succ n ih =>
    have hx := hround x hcount
    rw [persist, iterate, heq x hcount]
    revert hx
    rcases round x s with e | ⟨y | a, s₁⟩
    · intro _
      rfl
    · rintro (⟨o, -, hmeets, hmoved⟩ | -)
      -- A round that goes on has moved, so the watch lets it pass.
      have hlt : s₁.rest.length < s.rest.length := hmeets.moved hmoved
      simp only [if_pos hlt]
      apply ih y
      · omega
      · omega
    · intro _
      rfl

section Run

variable {enter enter' : Rule → Position → State → Except ParseError (NodeId × State)}

/-- A careful program goes unnoticed if the calls that it makes do. -/
theorem runWatched_eq (hend : c.endToken.kind = .endOfInput)
    (henter : ∀ rule p {s}, s.rest.length ≤ c.tokenCount → Reports c s s.rest.length
      (rule.MayAsk ((s.current c).lexeme s.tree.symbols)) (fun _ o => o.moved) (enter rule p s))
    (heq : ∀ rule p {s}, s.rest.length ≤ c.tokenCount → enter' rule p s = enter rule p s)
    (m : Reading α) (h : m.Careful first post o) (hs : o.Meets c length s)
    (hcount : s.rest.length ≤ c.tokenCount) :
    runWatched c enter' m start s = run c enter m start s := by
  induction m generalizing start s length first o with
  | done a => rfl
  | step action next ih =>
    rw [runWatched, run_step]
    exact (reports_perform hend action next h hs).bind_congr rfl fun x o _ hgrows hs h =>
      ih x h hs (Nat.le_trans hgrows.rest.length_le hcount)
  | call rule next ih =>
    rw [runWatched, run_call]
    have hcall := henter rule start hcount
    refine hcall.bind_congr (heq rule start hcount) fun id o' s' hgrows hmeets hmoved => ?_
    have hlt : s'.rest.length < s.rest.length := hmeets.moved hmoved
    simp only [if_pos hlt]
    -- Behind a call nothing is known of the next token but that there is one less.
    have hs' : (⟨true, none⟩ : Outlook).Meets c length s' :=
      ⟨Nat.le_trans hgrows.rest.length_le hs.length_le,
        fun _ => Nat.lt_of_lt_of_le hlt hs.length_le, nofun⟩
    exact ih id (h.2 id) hs' (Nat.le_trans hgrows.rest.length_le hcount)
  | frame body next ihbody ih =>
    rw [runWatched, run_frame]
    exact (reports_run hend henter body h hs hcount).bind_congr (ihbody h hs hcount)
      fun x o _ hgrows hs h => ih x h hs (Nat.le_trans hgrows.rest.length_le hcount)
  | @«repeat» α β σ round state next ihround ih =>
    obtain ⟨hround, h⟩ := h
    have hfresh (s : State) : (⟨false, none⟩ : Outlook).Meets c s.rest.length s :=
      ⟨Nat.le_refl _, nofun, nofun⟩
    have hreports (x : σ) {s : State} (hcount : s.rest.length ≤ c.tokenCount) :
        Reports c s s.rest.length (fun expected => o.moved ∨ first expected) Round.Moves
          (run c enter (round x) start s) :=
      reports_run hend henter (round x) (hround x) (hfresh s) hcount
    rw [runWatched, run_repeat]
    refine (reports_iterate hreports state (Nat.lt_succ_of_le hcount) hcount
      (hs.of_grows (.refl s))).bind_congr ?_ fun x o _ hgrows hs ho =>
        ih x (ho ▸ h x) hs (Nat.le_trans hgrows.rest.length_le hcount)
    exact persist_eq hreports (fun x {s} hcount => ihround x (hround x) (hfresh s) hcount) state
      (Nat.lt_succ_of_le hcount) hcount

end Run

/-- No rule is ever caught. -/
theorem enterWatched_eq (hend : c.endToken.kind = .endOfInput) (levels : Nat) (rule : Rule)
    (p : Position) (hcount : s.rest.length ≤ c.tokenCount) :
    Rule.enterWatched c levels rule p s = Rule.enter c levels rule p s := by
  induction levels generalizing rule p s with
  | zero => rfl
  | succ levels ih =>
    have hcareful := careful_reading rule ((s.current c).lexeme s.tree.symbols)
    refine runWatched_eq hend (fun rule p {s} hcount => reports_enter hend levels rule p hcount)
      (fun rule p {s} hcount => ih rule p hcount) rule.reading hcareful
      ⟨Nat.le_refl _, nofun, ?_⟩ hcount
    exact fun x hx => Option.some.inj hx

/-- A rule that succeeds has read something. -/
theorem length_lt_of_enter (hend : c.endToken.kind = .endOfInput) {levels : Nat} {rule : Rule}
    {p : Position} (hcount : s.rest.length ≤ c.tokenCount) {id : NodeId}
    (h : Rule.enter c levels rule p s = .ok (id, s')) :
    s'.rest <:+ s.rest ∧ s'.rest.length < s.rest.length := by
  have hreports := reports_enter hend levels rule p hcount
  rw [h] at hreports
  cases hreports with
  | ok o hgrows hmeets hmoved => exact ⟨hgrows.rest, hmeets.moved hmoved⟩

/-- A fault that concerns a token is not that of a program that stands still. -/
theorem not_stalled_of_enter (hend : c.endToken.kind = .endOfInput) {levels : Nat} {rule : Rule}
    {p : Position} (hcount : s.rest.length ≤ c.tokenCount) {e : ParseError}
    (h : Rule.enter c levels rule p s = .error e) (found : TokenKind) :
    e.fault ≠ .stalled found := by
  have hreports := reports_enter hend levels rule p hcount
  rw [h] at hreports
  intro hstalled
  cases hreports with
  | error hblames =>
    obtain ⟨symbols, -, hconcerns⟩ := hblames.concerns
    rw [hstalled] at hconcerns
    cases hconcerns

end Reading

/-- Wherever a rule is entered in a token stream, it has read something if it succeeds; so has
every rule that is called below it, and every round below it that is not the last one.  So neither
the rule nor the whole parse ever reports that it made no progress. -/
theorem advances_everywhere (stream : TokenStream) (limits : Limits) (levels : Nat) (rule : Rule)
    (p : Position) {s : State} (hs : s.rest <:+ (splitAtEnd stream.tokens).1) :
    (∀ id s', Rule.enter (stream.context limits) levels rule p s = .ok (id, s') →
      s'.rest <:+ s.rest ∧ s'.rest.length < s.rest.length) ∧
    Rule.enterWatched (stream.context limits) levels rule p s =
      Rule.enter (stream.context limits) levels rule p s ∧
    (∀ e found, Rule.enterWatched (stream.context limits) levels rule p s = .error e →
      e.fault ≠ .stalled found) ∧
    ∀ e found, parse stream limits = .error e → e.fault ≠ .stalled found := by
  have hend := stream.kind_endToken limits
  have hcount : s.rest.length ≤ (stream.context limits).tokenCount :=
    Nat.le_trans hs.length_le (length_splitAtEnd stream.tokens)
  have hwatched := enterWatched_eq hend levels rule p hcount
  refine ⟨fun id s' => length_lt_of_enter hend hcount, hwatched, fun e found h => ?_,
    fun e found h => ?_⟩
  · rw [hwatched] at h
    exact not_stalled_of_enter hend hcount h found
  · rw [parse_eq] at h
    split at h
    · next e' hrun =>
      cases h
      exact not_stalled_of_enter hend (length_splitAtEnd stream.tokens) hrun found
    · cases h

/-- A call with two arguments and an operator behind it, read as an expression from the middle of a
stream: operators, calls and arguments are repeated, and nothing is left. -/
theorem advances_in_product : ∃ stream s id s',
    lex "module m\nfunction f = -> g(1,\n 2) * a.b(3)" {} = .ok stream ∧
    s.rest <:+ (splitAtEnd stream.tokens).1 ∧
    Rule.enterWatched (stream.context {}) 20 (.expression 0) .start s = .ok (id, s') ∧
    s'.rest.length < s.rest.length ∧ s'.rest = [] := by
  have hreads : (lex "module m\nfunction f = -> g(1,\n 2) * a.b(3)" {}).toOption.map (fun stream =>
      (Rule.enter (stream.context {}) 20 (.expression 0) .start
        ⟨(splitAtEnd stream.tokens).1.drop 7, .start, .ofSymbols stream.symbols⟩).toOption.map
          fun r => r.2.rest.isEmpty) = some (some true) := by
    decide +kernel
  cases hlex : lex "module m\nfunction f = -> g(1,\n 2) * a.b(3)" {} with
  | error e =>
    rw [hlex] at hreads
    cases hreads
  | ok stream =>
    rw [hlex] at hreads
    cases h : Rule.enter (stream.context {}) 20 (.expression 0) .start
        ⟨(splitAtEnd stream.tokens).1.drop 7, .start, .ofSymbols stream.symbols⟩ with
    | error e =>
      simp only [Except.toOption, Option.map_some, h] at hreads
      cases hreads
    | ok r =>
      obtain ⟨id, s'⟩ := r
      have hempty : s'.rest.isEmpty = true := by
        simp only [Except.toOption, Option.map_some, h] at hreads
        exact Option.some.inj (Option.some.inj hreads)
      obtain ⟨hmoves, hwatched, -, -⟩ := advances_everywhere stream {} 20 (.expression 0) .start
        (s := ⟨_, .start, .ofSymbols stream.symbols⟩) (List.drop_suffix 7 _)
      exact ⟨stream, _, id, s', rfl, List.drop_suffix 7 _, hwatched.trans h, (hmoves id s' h).2,
        List.isEmpty_iff.mp hempty⟩

end GoloSyntax
