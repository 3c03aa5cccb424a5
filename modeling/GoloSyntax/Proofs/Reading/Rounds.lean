import GoloSyntax.Proofs.Reading.Faults

/-! # The bound on repetitions

A repetition is carried out at most once more often than there are tokens, and none ever comes that
far, for every round but the last one reads something.  So the number of tokens does not matter as
long as all that is read is among them (`enter_counting`); and a compilation unit depends on nothing
but the tokens in front of the first end of input and that end itself (`parse_congr`).
-/
namespace GoloSyntax

namespace Reading

variable {α β σ : Type} {c : Context} {count : Nat} {p : Position} {s : State}

/-- The same token list with another bound on repetitions. -/
def Context.counting (c : Context) (count : Nat) : Context := { c with tokenCount := count }

/-- With a wider bound the outcome is the same, unless the first one comes to the bound. -/
inductive Persists {α : Type} : Except ParseError α → Except ParseError α → Prop where
  | same (x : Except ParseError α) : Persists x x
  | stalled {e : ParseError} (kind : TokenKind) (h : e.fault = .stalled kind)
      (x : Except ParseError α) : Persists (.error e) x

theorem Persists.bind {x x' : Except ParseError α} {f f' : α → Except ParseError β}
    (hx : Persists x x') (hf : ∀ a, Persists (f a) (f' a)) : Persists (x.bind f) (x'.bind f') := by
  cases hx with
  | same =>
    cases x with
    | error e => exact .same _
    | ok a => exact hf a
  | stalled kind h => exact .stalled kind h _

theorem persists_iterate {round round' : σ → State → Except ParseError (Round σ β × State)}
    (hround : ∀ x s, Persists (round x s) (round' x s)) {n n' : Nat} (hn : n ≤ n') (x : σ)
    (s : State) : Persists (iterate c round n x s) (iterate (c.counting count) round' n' x s) := by
  induction n generalizing n' x s with
  | zero => exact .stalled _ rfl _
  | succ n ih =>
    obtain ⟨n', rfl⟩ := Nat.exists_eq_add_of_lt hn
    rw [iterate_succ, iterate_succ]
    refine (hround x s).bind fun r => ?_
    obtain ⟨y | a, s⟩ := r
    · apply ih
      omega
    · exact .same _

section

variable (hcount : c.tokenCount ≤ count)
include hcount

theorem persists_run {enter enter' : Rule → Position → State → Except ParseError (NodeId × State)}
    (henter : ∀ rule p s, Persists (enter rule p s) (enter' rule p s)) (m : Reading α) (s : State) :
    Persists (run c enter m p s) (run (c.counting count) enter' m p s) := by
  induction m generalizing p s with
  | done answer => exact .same _
  | step action next ih =>
    have haction : perform (c.counting count) p action s = perform c p action s := by
      cases action <;> rfl
    rw [run_step, run_step, haction]
    exact (Persists.same _).bind fun r => ih r.1 r.2
  | call rule next ih =>
    rw [run_call, run_call]
    exact (henter rule p s).bind fun r => ih r.1 r.2
  | frame body next ihbody ih =>
    rw [run_frame, run_frame]
    exact (ihbody s).bind fun r => ih r.1 r.2
  | «repeat» round state next ihround ih =>
    rw [run_repeat, run_repeat]
    have hrounds : c.tokenCount + 1 ≤ (c.counting count).tokenCount + 1 := Nat.succ_le_succ hcount
    exact (persists_iterate (fun x s => ihround x s) hrounds state s).bind fun r => ih r.1 r.2

theorem persists_enter (levels : Nat) (rule : Rule) (s : State) :
    Persists (Rule.enter c levels rule p s) (Rule.enter (c.counting count) levels rule p s) := by
  induction levels generalizing rule p s with
  | zero => exact .same _
  | succ levels ih => exact persists_run hcount (fun rule p s => ih rule s) rule.reading s

/-- A wider bound changes nothing if the narrower one is wide enough. -/
theorem enter_counting_of_le (hend : c.endToken.kind = .endOfInput)
    (hs : s.rest.length ≤ c.tokenCount) (levels : Nat) (rule : Rule) :
    Rule.enter (c.counting count) levels rule p s = Rule.enter c levels rule p s := by
  have hreports := reports_enter hend levels rule p hs
  have hpersists := persists_enter (p := p) hcount levels rule s
  revert hpersists hreports
  generalize Rule.enter c levels rule p s = x, Rule.enter (c.counting count) levels rule p s = x'
  rintro hreports (_ | ⟨kind, hstalled⟩)
  · rfl
  · cases hreports with
    | error hblames =>
      -- A fault that concerns a token is none of the bound.
      obtain ⟨symbols, -, hconcerns⟩ := hblames.concerns
      rw [hstalled] at hconcerns
      cases hconcerns

end

/-- The bound on repetitions does not matter if it is wide enough. -/
theorem enter_counting (hend : c.endToken.kind = .endOfInput) (hs : s.rest.length ≤ c.tokenCount)
    (hs' : s.rest.length ≤ count) (levels : Nat) (rule : Rule) :
    Rule.enter (c.counting count) levels rule p s = Rule.enter c levels rule p s := by
  rcases Nat.le_total c.tokenCount count with hle | hle
  · exact enter_counting_of_le hle hend hs levels rule
  · exact (enter_counting_of_le (c := c.counting count) hle hend hs' levels rule).symm

end Reading

open Reading

/-- What stands behind the first end of input does not matter. -/
theorem parse_congr {stream stream' : TokenStream} (limits : Limits)
    (hsplit : splitAtEnd stream'.tokens = splitAtEnd stream.tokens)
    (hsymbols : stream'.symbols = stream.symbols) : parse stream' limits = parse stream limits := by
  have hspan : stream'.unitSpan = stream.unitSpan := by rw [TokenStream.unitSpan, hsplit]; rfl
  have hcontext : stream'.context limits = (stream.context limits).counting stream'.size := by
    rw [TokenStream.context, hsplit]
    rfl
  have hlength := length_splitAtEnd stream'.tokens
  rw [hsplit] at hlength
  rw [parse_eq, parse_eq, hcontext, hspan, hsplit, hsymbols, enter_counting]
  · exact stream.kind_endToken limits
  · exact length_splitAtEnd stream.tokens
  · exact hlength

end GoloSyntax
