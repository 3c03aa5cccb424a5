import GoloSyntax.Proofs.Reading.Faults
import GoloSyntax.Proofs.Reading.Room

/-! # What a program makes of one token

A program that stands in front of a token may read it, may ask for another one in its place, or
may come to its end and leave the token to its caller.  Either of the last two is a `Verdict` on
the token, and `Reading.Rests` goes through a program to find the verdicts it can come to.  It
does not follow calls, because what a rule asks for in place of its first token is known.

A run that starts in front of the token (`Gate`) comes to one of these verdicts, or it goes
astray: it reads the token, or fails for a reason other than the token (`ends_run`).
-/
namespace GoloSyntax

/-- The token is an identifier with its text. -/
def Lexeme.isName (x : Lexeme) : Bool := x.kind = .identifier && x.text.isSome

/-- The program that a round of a repetition leads to. -/
def Round.onward {α β σ : Type} (round : σ → Reading (Round σ β)) (next : β → Reading α)
    (r : Round σ β) : Reading α :=
  match r with
  | .again state => .repeat round state next
  | .stop answer => next answer

section Onward

variable {α β σ : Type} (round : σ → Reading (Round σ β)) (next : β → Reading α)

@[simp] theorem Round.onward_again (state : σ) :
    (Round.again state).onward round next = .repeat round state next := rfl

@[simp] theorem Round.onward_stop (answer : β) :
    (.stop answer : Round σ β).onward round next = next answer := rfl

end Onward

namespace Reading

/-- What a program comes to in front of a token that it does not read. -/
inductive Verdict (α : Type) where
  /-- Something else is asked for. -/
  | refuses (expected : List Expected)
  /-- The program is at its end. -/
  | passes (answer : α)

/-- What is known of a verdict of either kind. -/
def Verdict.Then {α : Type} (v : Verdict α) (refused : List Expected → Prop) (next : α → Prop) :
    Prop :=
  match v with
  | .refuses expected => refused expected
  | .passes answer => next answer

/-- The verdicts of one program after another. -/
def Leads {α β : Type} (first : Verdict β → Prop) (next : β → Verdict α → Prop)
    (v : Verdict α) : Prop :=
  (∃ b, first (.passes b) ∧ next b v) ∨ ∃ expected, first (.refuses expected) ∧ v = .refuses expected

/-- The verdicts of a repetition. -/
inductive Rounds {β σ : Type} (round : σ → Verdict (Round σ β) → Prop) : σ → Verdict β → Prop where
  | again {s s' : σ} {v : Verdict β} (h : round s (.passes (.again s'))) (h' : Rounds round s' v) :
      Rounds round s v
  | stop {s : σ} {b : β} (h : round s (.passes (.stop b))) : Rounds round s (.passes b)
  | refuses {s : σ} {expected : List Expected} (h : round s (.refuses expected)) :
      Rounds round s (.refuses expected)

/-- A program may come to a verdict on the token `x`. -/
def Leaves (x : Lexeme) : {α : Type} → Reading α → Verdict α → Prop
  | _, .done a, v => v = .passes a
  | _, .step .look next, v => Leaves x (next x) v
  | _, .step .lookBehind next, v => ∃ kind, Leaves x (next kind) v
  | _, .step .advance next, v => x.kind = .endOfInput ∧ Leaves x (next ()) v
  | _, .step .skipNewlines next, v => x.kind ≠ .newline ∧ Leaves x (next ()) v
  | _, .step (.openNode _) next, v => ∃ id, Leaves x (next id) v
  | _, .step (.closeNode _) next, v => Leaves x (next ()) v
  | _, .step (.setKind ..) next, v => Leaves x (next ()) v
  | _, .step (.attach ..) next, v => Leaves x (next ()) v
  | _, .step (.intern _) next, v => Leaves x (next ()) v
  | _, .step (.reject expected) _, v => v = .refuses expected
  | _, .step (.refuseLiteral fault) _, v => v = .refuses fault.expected
  | _, .call rule _, v => ∃ expected,
    (rule ≠ .compilationUnit → expected = rule.asks ∧ rule.starts x.kind = false) ∧
      v = .refuses expected
  | _, .frame body next, v => Leads (Leaves x body) (fun b => Leaves x (next b)) v
  | _, .repeat round state next, v =>
    Leads (Rounds (fun s => Leaves x (round s)) state) (fun b => Leaves x (next b)) v

/-- Every verdict of a program on the token `x` is as `post` says. -/
def Rests {α : Type} (x : Lexeme) (m : Reading α) (post : Verdict α → Prop) : Prop :=
  ∀ v, m.Leaves x v → post v

/-! ## Runs go forward -/

/-- Whatever comes of a run concerns a place that the run can get to. -/
inductive Forward (c : Context) (s : State) {α : Type} : Except ParseError (α × State) → Prop where
  | ok {a : α} {s' : State} (h : s'.rest <:+ s.rest) : Forward c s (.ok (a, s'))
  | error {e : ParseError} {left : List Token} (h : left <:+ s.rest)
      (hplace : e.position = (left.head?.getD c.endToken).span.start) : Forward c s (.error e)

variable {α β σ : Type} {c : Context} {p : Position} {s s' : State}

theorem Forward.bind {x : Except ParseError (α × State)}
    {f : α × State → Except ParseError (β × State)} (hx : Forward c s x)
    (hf : ∀ a s', Forward c s' (f (a, s'))) : Forward c s (x.bind f) := by
  cases hx with
  | error h hplace => exact .error h hplace
  | @ok a s' h =>
    show Forward c s (f (a, s'))
    generalize f (a, s') = y, hf a s' = hy
    cases hy with
    | error h' hplace => exact .error (h'.trans h) hplace
    | ok h' => exact .ok (h'.trans h)

theorem Forward.fail (fault : ParseFault) :
    Forward c s (s.fail c fault : Except ParseError (α × State)) :=
  .error List.suffix_rfl rfl

theorem forward_perform (action : Step) : Forward c s (perform c p action s) := by
  cases h : perform c p action s with
  | ok r => exact .ok (grows_perform action h).rest
  | error e =>
    rw [← h]
    cases action with
    | reject | refuseLiteral => exact .fail _
    | openNode kind =>
      simp only [perform] at h ⊢
      split at h
      · next hfull =>
        rw [if_pos hfull]
        exact .fail _
      · cases h
    | look | lookBehind | advance | skipNewlines | closeNode | setKind | attach | intern => cases h

theorem forward_iterate {round : σ → State → Except ParseError (Round σ β × State)}
    (hround : ∀ x s, Forward c s (round x s)) (n : Nat) (x : σ) (s : State) :
    Forward c s (iterate c round n x s) := by
  induction n generalizing x s with
  | zero => exact .fail _
  | succ n ih =>
    rw [iterate_succ]
    refine (hround x s).bind fun r s' => ?_
    cases r with
    | again y => exact ih y s'
    | stop answer => exact .ok List.suffix_rfl

theorem forward_run {enter : Rule → Position → State → Except ParseError (NodeId × State)}
    (henter : ∀ rule p s, Forward c s (enter rule p s)) (m : Reading α) (s : State) :
    Forward c s (run c enter m p s) := by
  induction m generalizing p s with
  | done a => exact .ok List.suffix_rfl
  | step action next ih =>
    rw [run_step]
    exact (forward_perform action).bind fun x s' => ih x s'
  | call rule next ih =>
    rw [run_call]
    exact (henter rule p s).bind fun id s' => ih id s'
  | frame body next ihbody ih =>
    rw [run_frame]
    exact (ihbody s).bind fun x s' => ih x s'
  | «repeat» round state next ihround ih =>
    rw [run_repeat]
    exact (forward_iterate (fun x s => ihround x s) _ state s).bind fun x s' => ih x s'

theorem forward_enter (levels : Nat) (rule : Rule) (p : Position) (s : State) :
    Forward c s (Rule.enter c levels rule p s) := by
  induction levels generalizing rule p s with
  | zero => exact .fail _
  | succ levels ih => exact forward_run ih rule.reading s

section Rounds

variable (c : Context) (n : Nat) (round : σ → Reading (Round σ β)) (next : β → Reading α)
  (p : Position) (count : Nat)

/-- Carry out at most `count` rounds of a repetition, and what follows it. -/
def runRounds (x : σ) (s : State) : Except ParseError (α × State) :=
  (iterate c (fun x s => run c (Rule.enter c n) (round x) p s) count x s).bind fun r =>
    run c (Rule.enter c n) (next r.1) p r.2

/-- Carry out what follows a round. -/
def runOnward : Round σ β × State → Except ParseError (α × State)
  | (.again x, s) => runRounds c n round next p count x s
  | (.stop b, s) => run c (Rule.enter c n) (next b) p s

theorem runRounds_succ (x : σ) (s : State) : runRounds c n round next p (count + 1) x s =
    (run c (Rule.enter c n) (round x) p s).bind (runOnward c n round next p count) := by
  rw [runRounds, iterate]
  rcases run c (Rule.enter c n) (round x) p s with e | ⟨y | y, s'⟩ <;> rfl

theorem forward_runOnward (r : Round σ β) (s : State) :
    Forward c s (runOnward c n round next p count (r, s)) := by
  have hnext (b : β) (s : State) := forward_run (p := p) (forward_enter (c := c) n) (next b) s
  cases r with
  | again x =>
    exact (forward_iterate (fun x s => forward_run (forward_enter n) (round x) s) count x s).bind hnext
  | stop b => exact hnext b s

end Rounds

/-! ## In front of a token -/

/-- A place in a token list. -/
structure Gate where
  context : Context
  /-- All tokens of the list. -/
  all : List Token
  /-- The tokens behind the place. -/
  rest : List Token
  /-- The first of them, as it reads. -/
  next : Lexeme
  named : next.kind = .identifier → next.text.isSome
  endKind : context.endToken.kind = .endOfInput
  suffix : rest <:+ all
  count : all.length ≤ context.tokenCount

namespace Gate

variable (G : Gate)

/-- The token behind the place. -/
def token : Token := G.rest.head?.getD G.context.endToken

/-- The token reads as it should, whatever texts are entered. -/
structure Knows (symbols : SymbolTable) : Prop where
  lexeme : G.token.lexeme symbols = G.next
  text : G.token.HasText symbols

/-- A run has come to the place. -/
structure Stands (s : State) : Prop where
  rest : s.rest = G.rest
  knows : G.Knows s.tree.symbols

/-- The outcome of a run that has read the token, or has failed for a reason other than it. -/
inductive Strays {α : Type} : Except ParseError (α × State) → Prop where
  | past {a : α} {s : State} (hrest : s.rest <:+ G.all) (hlt : s.rest.length < G.rest.length) :
      Strays (.ok (a, s))
  | behind {e : ParseError} {left : List Token} (hleft : left <:+ G.all)
      (hlt : left.length < G.rest.length)
      (hplace : e.position = (left.head?.getD G.context.endToken).span.start) : Strays (.error e)
  | aside {e : ParseError} (h : e.fault.expected = [])
      (hvalue : e.kind = .invalidLiteral → G.next.kind.spellsValue) : Strays (.error e)

/-- The outcome of a run that comes to a verdict. -/
inductive Comes {α : Type} : Verdict α → Except ParseError (α × State) → Prop where
  | passes {a : α} {s : State} (h : G.Stands s) : Comes (.passes a) (.ok (a, s))
  | refuses {e : ParseError} {expected : List Expected} (h : e.fault.expected = expected) :
      Comes (.refuses expected) (.error e)

/-- The outcome of a run whose verdicts are as `post` says. -/
inductive Ends {α : Type} (post : Verdict α → Prop) (x : Except ParseError (α × State)) : Prop where
  | strays (h : G.Strays x)
  | comes (v : Verdict α) (h : G.Comes v x) (hpost : post v)

variable {G} {n : Nat} {post : Verdict α → Prop} {post₁ : Verdict β → Prop}

theorem Knows.within {symbols symbols' : SymbolTable} (h : G.Knows symbols)
    (hwithin : symbols.Within symbols') : G.Knows symbols' where
  lexeme := by rw [Token.lexeme_of_within h.text hwithin, h.lexeme]
  text := h.text.within hwithin

theorem Stands.current (h : G.Stands s) : s.current G.context = G.token := by
  rw [State.current, h.rest, token]

theorem Stands.lexeme (h : G.Stands s) :
    (s.current G.context).lexeme s.tree.symbols = G.next := by
  rw [h.current, h.knows.lexeme]

theorem Stands.count (h : G.Stands s) : s.rest.length ≤ G.context.tokenCount := by
  rw [h.rest]
  exact Nat.le_trans G.suffix.length_le G.count

/-- Only the tree changes. -/
theorem Stands.build {lastEnd : Position} {tree : Tree} (h : G.Stands s)
    (hwithin : s.tree.symbols.Within tree.symbols) : G.Stands ⟨s.rest, lastEnd, tree⟩ :=
  ⟨h.rest, h.knows.within hwithin⟩

theorem Strays.of_forward (hrest : s.rest <:+ G.all) (hlt : s.rest.length < G.rest.length)
    {x : Except ParseError (α × State)} (hx : Forward G.context s x) : G.Strays x := by
  cases hx with
  | ok h => exact .past (h.trans hrest) (Nat.lt_of_le_of_lt h.length_le hlt)
  | error h hplace =>
    exact .behind (h.trans hrest) (Nat.lt_of_le_of_lt h.length_le hlt) hplace

/-- A limit asks for nothing and blames no literal. -/
theorem Strays.of_limit {e : ParseError} (h : e.fault.isLimit) :
    G.Strays (.error e : Except ParseError (α × State)) := by
  obtain ⟨fault, position⟩ := e
  cases fault with
  | tooDeep | tooManyNodes => exact .aside rfl fun hkind => by cases hkind
  | _ => cases h

theorem Strays.of_stalled {kind : TokenKind} {position : Position} :
    G.Strays (.error ⟨.stalled kind, position⟩ : Except ParseError (α × State)) :=
  .aside rfl fun hkind => by cases hkind

theorem Strays.bind {x : Except ParseError (α × State)}
    {f : α × State → Except ParseError (β × State)} (hx : G.Strays x)
    (hf : ∀ a s, Forward G.context s (f (a, s))) : G.Strays (x.bind f) := by
  cases hx with
  | past hrest hlt => exact .of_forward hrest hlt (hf _ _)
  | behind hleft hlt hplace => exact .behind hleft hlt hplace
  | aside h hvalue => exact .aside h hvalue

theorem Ends.bind {x : Except ParseError (α × State)}
    {f : α × State → Except ParseError (β × State)} (hx : G.Ends post x)
    (hforward : ∀ a s, Forward G.context s (f (a, s)))
    (hf : ∀ a s, G.Stands s → post (.passes a) → G.Ends post₁ (f (a, s)))
    (hrefuses : ∀ expected, post (.refuses expected) → post₁ (.refuses expected)) :
    G.Ends post₁ (x.bind f) := by
  cases hx with
  | strays h => exact .strays (h.bind hforward)
  | comes v h hpost =>
    cases h with
    | passes hs => exact hf _ _ hs hpost
    | refuses h => exact .comes _ (.refuses h) (hrefuses _ hpost)

/-- The first token behind the place is read. -/
theorem Stands.advance (h : G.Stands s) :
    G.next.kind = .endOfInput ∧ G.Stands s.advance ∨
      s.advance.rest <:+ G.all ∧ s.advance.rest.length < G.rest.length := by
  obtain ⟨rest, lastEnd, tree⟩ := s
  obtain ⟨rfl, hknows⟩ := h
  cases hrest : G.rest with
  | nil =>
    refine .inl ⟨?_, hrest.symm, hknows⟩
    rw [← hknows.lexeme, token, hrest]
    exact G.endKind
  | cons token rest =>
    have hsuffix := G.suffix
    rw [hrest] at hsuffix
    exact .inr ⟨(List.suffix_cons _ _).trans hsuffix, Nat.lt_succ_self _⟩

theorem Stands.skipNewlines (h : G.Stands s) :
    G.next.kind ≠ .newline ∧ s.rest.dropWhile (·.kind = .newline) = s.rest ∨
      s.rest.dropWhile (·.kind = .newline) <:+ G.all ∧
        (s.rest.dropWhile (·.kind = .newline)).length < G.rest.length := by
  have hkind : G.token.kind = G.next.kind := congrArg Lexeme.kind h.knows.lexeme
  have hsuffix := G.suffix
  rw [h.rest]
  cases hrest : G.rest with
  | nil =>
    rw [token, hrest] at hkind
    refine .inl ⟨?_, rfl⟩
    rw [← hkind]
    exact G.endKind ▸ nofun
  | cons token rest =>
    rw [Gate.token, hrest] at hkind
    rw [hrest] at hsuffix
    replace hkind : token.kind = G.next.kind := hkind
    by_cases hnewline : token.kind = .newline
    · rw [List.dropWhile_cons_of_pos (by simpa using hnewline)]
      have hdrop : rest.dropWhile (·.kind = .newline) <:+ rest := List.dropWhile_suffix _
      exact .inr ⟨(hdrop.trans (List.suffix_cons _ _)).trans hsuffix,
        Nat.lt_succ_of_le hdrop.length_le⟩
    · rw [List.dropWhile_cons_of_neg (by simpa using hnewline)]
      exact .inl ⟨hkind ▸ hnewline, rfl⟩

theorem kind_eq_invalidLiteral {fault : ParseFault} {x : Lexeme} (h : fault.Concerns x)
    (hkind : fault.kind = .invalidLiteral) : x.kind.spellsValue := by
  cases h with
  | unexpected =>
    revert hkind
    rw [ParseFault.kind.eq_def]
    split <;> simp_all
  | literalWithoutText hvalue => exact hvalue
  | invalidNumber hnumber => rw [hnumber]; rfl
  | tooDeep | tooManyNodes => cases hkind

theorem Ends.imp {post' : Verdict α → Prop} {x : Except ParseError (α × State)}
    (h : ∀ v, post v → post' v) (hx : G.Ends post x) : G.Ends post' x := by
  cases hx with
  | strays h' => exact .strays h'
  | comes v h' hpost => exact .comes v h' (h v hpost)

/-- A rule reads its first token, or asks for what it begins with. -/
theorem ends_enter {rule : Rule} (hs : G.Stands s) :
    G.Ends (fun v => v.Then
        (fun expected => rule ≠ .compilationUnit →
          expected = rule.asks ∧ rule.starts G.next.kind = false) fun _ => False)
      (Rule.enter G.context n rule p s) := by
  have hreports := reports_enter G.endKind n rule p hs.count
  revert hreports
  rw [hs.lexeme]
  rcases Rule.enter G.context n rule p s with e | ⟨id, s'⟩
  · rintro (_ | ⟨hblames⟩)
    have hleft := hblames.suffix
    rw [hs.rest] at hleft
    rcases Nat.lt_or_ge _ G.rest.length with hlt | hge
    · exact .strays (.behind (hleft.trans G.suffix) hlt hblames.position)
    · obtain rfl := hleft.eq_of_length_le hge
      rcases hblames.first with hlt | hnone | hasked
      · rw [hs.rest] at hlt
        exact absurd hlt (Nat.lt_irrefl _)
      · obtain ⟨symbols, hwithin, hconcerns⟩ := hblames.concerns
        have hlexeme : G.token.lexeme symbols = G.next := (hs.knows.within hwithin).lexeme
        change e.fault.Concerns (G.token.lexeme symbols) at hconcerns
        rw [hlexeme] at hconcerns
        exact .strays (.aside hnone (kind_eq_invalidLiteral hconcerns))
      · exact .comes _ (.refuses rfl) fun hrule => hasked hrule G.named
  · rintro (⟨o, hgrows, hmeets, hmoved⟩ | _)
    have hlt := hmeets.moved hmoved
    have hrest := hgrows.rest
    rw [hs.rest] at hlt hrest
    exact .strays (.past (hrest.trans G.suffix) hlt)

/-- Rounds of a repetition, and what follows them. -/
theorem ends_runRounds {round : σ → Reading (Round σ β)} {next : β → Reading α}
    (hround : ∀ x {s}, G.Stands s →
      G.Ends ((round x).Leaves G.next) (run G.context (Rule.enter G.context n) (round x) p s))
    (hnext : ∀ b {s}, G.Stands s →
      G.Ends ((next b).Leaves G.next) (run G.context (Rule.enter G.context n) (next b) p s))
    (count : Nat) (x : σ) (hs : G.Stands s) :
    G.Ends ((Reading.repeat round x next).Leaves G.next)
      (runRounds G.context n round next p count x s) := by
  induction count generalizing x s with
  | zero => exact .strays .of_stalled
  | succ count ih =>
    rw [runRounds_succ]
    refine (hround x hs).bind (forward_runOnward _ _ _ _ _ _) (fun y s hs hy => ?_)
      fun expected h => .inr ⟨expected, .refuses h, rfl⟩
    cases y with
    | again y =>
      refine .imp (fun v => ?_) (ih y hs)
      exact .imp (fun ⟨b, hb, h⟩ => ⟨b, .again hy hb, h⟩) fun ⟨e, he, h⟩ => ⟨e, .again hy he, h⟩
    | stop b => exact .imp (fun v h => .inl ⟨b, .stop hy, h⟩) (hnext b hs)

/-- A run from the place goes astray, or comes to a verdict of its program. -/
theorem ends_run (m : Reading α) (hs : G.Stands s) :
    G.Ends (m.Leaves G.next) (run G.context (Rule.enter G.context n) m p s) := by
  induction m generalizing p s with
  | done a => exact .comes _ (.passes hs) rfl
  | step action next ih =>
    have hgo (x : action.Answer) := forward_run (p := p) (forward_enter (c := G.context) n) (next x)
    rw [run_step]
    cases action with
    | look =>
      show G.Ends _ (run _ _ (next ((s.current G.context).lexeme s.tree.symbols)) p s)
      rw [hs.lexeme]
      exact ih _ hs
    | lookBehind => exact .imp (fun v h => ⟨_, h⟩) (ih _ hs)
    | advance =>
      rcases hs.advance with ⟨hend, hs'⟩ | ⟨hrest, hlt⟩
      · exact .imp (fun v h => ⟨hend, h⟩) (ih () hs')
      · exact .strays (.of_forward hrest hlt (hgo () _))
    | skipNewlines =>
      show G.Ends _ (run _ _ (next ()) p ⟨s.rest.dropWhile (·.kind = .newline), _, _⟩)
      rcases hs.skipNewlines with ⟨hkind, hrest⟩ | ⟨hrest, hlt⟩
      · rw [hrest]
        exact .imp (fun v h => ⟨hkind, h⟩) (ih () ⟨hs.rest, hs.knows⟩)
      · exact .strays (.of_forward hrest hlt (hgo () _))
    | openNode kind =>
      simp only [perform]
      split
      · exact .strays (.of_limit rfl)
      · exact .imp (fun v h => ⟨_, h⟩) (ih _ (hs.build (.refl _)))
    | closeNode id => exact ih () (hs.build (.refl _))
    | setKind id kind => exact ih () (hs.build (.refl _))
    | attach parent child =>
      refine ih () (hs.build ?_)
      rw [symbols_attach]
      exact .refl _
    | intern text => exact ih () (hs.build (SymbolTable.within_intern _ _))
    | reject expected => exact .comes _ (.refuses rfl) rfl
    | refuseLiteral fault => exact .comes _ (.refuses rfl) rfl
  | call rule next ih =>
    rw [run_call]
    exact (ends_enter hs).bind (fun id s => forward_run (forward_enter n) (next id) s)
      (fun _ _ _ h => h.elim) fun expected h => ⟨expected, h, rfl⟩
  | frame body next ihbody ih =>
    rw [run_frame]
    exact (ihbody hs).bind (fun x s => forward_run (forward_enter n) (next x) s)
      (fun b s hs hb => .imp (fun v h => .inl ⟨b, hb, h⟩) (ih b hs))
      fun expected h => .inr ⟨expected, h, rfl⟩
  | «repeat» round state next ihround ih =>
    rw [run_repeat]
    exact ends_runRounds (fun x {s} hs => ihround x hs) (fun x {s} hs => ih x hs) _ state hs

theorem ends_runOnward {round : σ → Reading (Round σ β)} {next : β → Reading α} {r : Round σ β}
    (count : Nat) (hs : G.Stands s) : G.Ends ((r.onward round next).Leaves G.next)
      (runOnward G.context n round next p count (r, s)) := by
  cases r with
  | again x =>
    exact ends_runRounds (fun x {s} hs => ends_run (round x) hs)
      (fun x {s} hs => ends_run (next x) hs) count x hs
  | stop b => exact ends_run (next b) hs

end Gate

/-! ## Putting programs together -/

section Programs

variable {x : Lexeme} {post : Verdict α → Prop}

theorem leads_assoc {γ : Type} {first : Verdict γ → Prop} {next : γ → Verdict β → Prop}
    {last : β → Verdict α → Prop} {v : Verdict α} :
    Leads first (fun c => Leads (next c) last) v ↔ Leads (Leads first next) last v := by
  constructor
  · rintro (⟨c, hc, ⟨b, hb, h⟩ | ⟨e, he, rfl⟩⟩ | ⟨e, he, rfl⟩)
    · exact .inl ⟨b, .inl ⟨c, hc, hb⟩, h⟩
    · exact .inr ⟨e, .inl ⟨c, hc, he⟩, rfl⟩
    · exact .inr ⟨e, .inr ⟨e, he, rfl⟩, rfl⟩
  · rintro (⟨b, ⟨c, hc, hb⟩ | ⟨e, -, ⟨⟩⟩, h⟩ | ⟨e, ⟨c, hc, he⟩ | ⟨e', he, ⟨⟩⟩, rfl⟩)
    · exact .inl ⟨c, hc, .inl ⟨b, hb, h⟩⟩
    · exact .inl ⟨c, hc, .inr ⟨e, he, rfl⟩⟩
    · exact .inr ⟨e, he, rfl⟩

section Leads

variable {first : Verdict β → Prop} {next : β → Verdict α → Prop} {v : Verdict α}

theorem leads_passes {b : β} : Leads (· = .passes b) next v ↔ next b v := by
  constructor
  · rintro (⟨_, ⟨⟩, h⟩ | ⟨_, ⟨⟩, -⟩)
    exact h
  · exact fun h => .inl ⟨b, rfl, h⟩

theorem leads_refuses {expected : List Expected} :
    Leads (· = .refuses expected) next v ↔ v = .refuses expected := by
  constructor
  · rintro (⟨_, ⟨⟩, -⟩ | ⟨_, ⟨⟩, h⟩)
    exact h
  · exact fun h => .inr ⟨expected, rfl, h⟩

theorem leads_exists {ι : Type} {first : ι → Verdict β → Prop} :
    Leads (fun v => ∃ i, first i v) next v ↔ ∃ i, Leads (first i) next v := by
  constructor
  · rintro (⟨b, ⟨i, hb⟩, h⟩ | ⟨e, ⟨i, he⟩, h⟩)
    · exact ⟨i, .inl ⟨b, hb, h⟩⟩
    · exact ⟨i, .inr ⟨e, he, h⟩⟩
  · rintro ⟨i, ⟨b, hb, h⟩ | ⟨e, he, h⟩⟩
    · exact .inl ⟨b, ⟨i, hb⟩, h⟩
    · exact .inr ⟨e, ⟨i, he⟩, h⟩

theorem leads_and {p : Prop} : Leads (fun v => p ∧ first v) next v ↔ p ∧ Leads first next v := by
  by_cases hp : p <;> simp [Leads, hp]

/-- A program may be judged from the verdicts that it may come to. -/
theorem leads_congr {first' : Verdict β → Prop} {next' : β → Verdict α → Prop}
    (h : ∀ v, first v ↔ first' v) (h' : ∀ b v, next b v ↔ next' b v) :
    Leads first next v ↔ Leads first' next' v :=
  or_congr (exists_congr fun b => and_congr (h _) (h' b v))
    (exists_congr fun _ => and_congr_left' (h _))

/-- One verdict of the first program leads to it. -/
theorem leads_iff : Leads first next v ↔ ∃ u, first u ∧ Leads (· = u) next v := by
  constructor
  · rintro (⟨b, hb, h⟩ | ⟨e, he, rfl⟩)
    · exact ⟨_, hb, .inl ⟨b, rfl, h⟩⟩
    · exact ⟨_, he, .inr ⟨e, rfl, rfl⟩⟩
  · rintro ⟨u, hu, ⟨b, rfl, h⟩ | ⟨e, rfl, rfl⟩⟩
    · exact .inl ⟨b, hu, h⟩
    · exact .inr ⟨e, hu, rfl⟩

theorem forall_leads {post : Verdict α → Prop} : (∀ v, Leads first next v → post v) ↔
    ∀ v, first v → v.Then (fun expected => post (.refuses expected)) fun b =>
      ∀ v, next b v → post v := by
  constructor
  · rintro h (e | b) hv
    · exact h _ (.inr ⟨e, hv, rfl⟩)
    · exact fun v hb => h v (.inl ⟨b, hv, hb⟩)
  · rintro h v (⟨b, hb, hv⟩ | ⟨e, he, rfl⟩)
    · exact h _ hb v hv
    · exact h _ he

end Leads

theorem leaves_bind (m : Reading α) (f : α → Reading β) (v : Verdict β) :
    (m >>= f).Leaves x v ↔ Leads (m.Leaves x) (fun a => (f a).Leaves x) v := by
  show (m.bind f).Leaves x v ↔ _
  induction m with
  | done a =>
    exact (leads_passes : Leads (· = .passes a) (fun a => (f a).Leaves x) v ↔ _).symm
  | step action next ih =>
    cases action with
    | look => exact ih x f
    | lookBehind => exact (exists_congr fun kind => ih kind f).trans leads_exists.symm
    | advance | skipNewlines => exact (and_congr_right' (ih () f)).trans leads_and.symm
    | openNode kind => exact (exists_congr fun id => ih id f).trans leads_exists.symm
    | closeNode | setKind | attach | intern => exact ih () f
    | reject | refuseLiteral => exact leads_refuses.symm
  | call rule next ih =>
    simp only [Reading.bind, Leaves, leads_exists, leads_and, leads_refuses]
  | frame body next _ ih | «repeat» round state next _ ih =>
    exact (leads_congr (fun _ => .rfl) fun b v => ih b f).trans leads_assoc

-- These are applied from the outside in: what a program does behind the next token drops out
-- before it is looked at.

@[simp ↓] theorem then_refuses {expected : List Expected} {refused : List Expected → Prop}
    {next : α → Prop} : (Verdict.refuses expected).Then refused next ↔ refused expected := .rfl

@[simp ↓] theorem then_passes {a : α} {refused : List Expected → Prop} {next : α → Prop} :
    (Verdict.passes a).Then refused next ↔ next a := .rfl

@[simp ↓] theorem rests_bind (m : Reading α) (f : α → Reading β) {post : Verdict β → Prop} :
    (m >>= f).Rests x post ↔ m.Rests x fun v => v.Then (fun expected => post (.refuses expected))
      fun a => (f a).Rests x post := by
  simp only [Rests, leaves_bind, forall_leads]

theorem Rests.imp {post' : Verdict α → Prop} {m : Reading α} (h : m.Rests x post)
    (hpost : ∀ v, post v → post' v) : m.Rests x post' :=
  fun v hv => hpost v (h v hv)

@[simp ↓] theorem rests_pure (a : α) : (pure a : Reading α).Rests x post ↔ post (.passes a) := forall_eq

@[simp ↓] theorem rests_done (a : α) : (Reading.done a).Rests x post ↔ post (.passes a) := forall_eq

@[simp ↓] theorem rests_look {post : Verdict Lexeme → Prop} :
    look.Rests x post ↔ post (.passes x) := forall_eq

@[simp ↓] theorem rests_peek {post : Verdict TokenKind → Prop} :
    peek.Rests x post ↔ post (.passes x.kind) := forall_eq

@[simp ↓] theorem rests_peekBehind {post : Verdict TokenKind → Prop} :
    peekBehind.Rests x post ↔ ∀ kind, post (.passes kind) := by
  show (∀ v, (∃ kind, v = .passes kind) → post v) ↔ _
  simp

@[simp ↓] theorem rests_advance {post : Verdict Unit → Prop} :
    advance.Rests x post ↔ (x.kind = .endOfInput → post (.passes ())) := by
  show (∀ v, x.kind = .endOfInput ∧ v = .passes () → post v) ↔ _
  simp

@[simp ↓] theorem rests_skipNewlines {post : Verdict Unit → Prop} :
    skipNewlines.Rests x post ↔ (x.kind ≠ .newline → post (.passes ())) := by
  show (∀ v, x.kind ≠ .newline ∧ v = .passes () → post v) ↔ _
  simp

@[simp ↓] theorem rests_openNode {kind : NodeKind} {post : Verdict NodeId → Prop} :
    (openNode kind).Rests x post ↔ ∀ id, post (.passes id) := by
  show (∀ v, (∃ id, v = .passes id) → post v) ↔ _
  simp

@[simp ↓] theorem rests_closeNode {id : NodeId} {post : Verdict NodeId → Prop} :
    (closeNode id).Rests x post ↔ post (.passes id) := forall_eq

@[simp ↓] theorem rests_setKind {id : NodeId} {kind : NodeKind} {post : Verdict Unit → Prop} :
    (setKind id kind).Rests x post ↔ post (.passes ()) := forall_eq

@[simp ↓] theorem rests_attach {parent child : NodeId} {post : Verdict Unit → Prop} :
    (attach parent child).Rests x post ↔ post (.passes ()) := forall_eq

@[simp ↓] theorem rests_intern {text : String} {post : Verdict Unit → Prop} :
    (intern text).Rests x post ↔ post (.passes ()) := forall_eq

@[simp ↓] theorem rests_reject {expected : List Expected} :
    (reject expected : Reading α).Rests x post ↔ post (.refuses expected) := forall_eq

@[simp ↓] theorem rests_enter {rule : Rule} {post : Verdict NodeId → Prop}
    (hrule : rule ≠ .compilationUnit) :
    (enter rule).Rests x post ↔ (rule.starts x.kind = false → post (.refuses rule.asks)) := by
  show (∀ v, (∃ expected, (rule ≠ .compilationUnit → expected = rule.asks ∧
    rule.starts x.kind = false) ∧ v = .refuses expected) → post v) ↔ _
  simp [hrule]

@[simp ↓] theorem rests_framed {body : Reading α} :
    (framed body).Rests x post ↔ body.Rests x post := by
  show (∀ v, Leads (body.Leaves x) (fun b v => v = .passes b) v → post v) ↔ _
  rw [forall_leads]
  refine forall_congr' fun v => imp_congr_right fun _ => ?_
  cases v with
  | refuses expected => rfl
  | passes a => exact forall_eq

/-- A repetition, from one round to the next. -/
theorem rests_repeat {round : σ → Reading (Round σ β)} {next : β → Reading α} {state : σ} :
    (Reading.repeat round state next).Rests x post ↔ (round state).Rests x fun v =>
      v.Then (fun expected => post (.refuses expected)) fun r =>
        (r.onward round next).Rests x post := by
  have hrounds (state : σ) : (Reading.repeat round state next).Rests x post ↔
      ∀ v, Rounds (fun s => (round s).Leaves x) state v →
        v.Then (fun expected => post (.refuses expected)) fun b => (next b).Rests x post := forall_leads
  rw [hrounds]
  constructor
  · rintro h (expected | y | b) hv
    · exact h _ (.refuses hv)
    · exact (hrounds y).mpr fun v hrest => h v (.again hv hrest)
    · exact h _ (.stop hv)
  · rintro h v (⟨hv, hrest⟩ | hv | hv)
    · exact (hrounds _).mp (h _ hv) v hrest
    · exact h _ hv
    · exact h _ hv

theorem rests_expect {kind : TokenKind} {post : Verdict Unit → Prop} (hend : kind ≠ .endOfInput) :
    (expect kind).Rests x post ↔ (x.kind ≠ kind → post (.refuses [.token kind])) := by
  simp only [expect, rests_bind, rests_peek, then_passes]
  split
  · next h => simp [h, hend]
  · next h => simp [h]

@[simp ↓] theorem rests_expect_mark {sign : Mark} {post : Verdict Unit → Prop} :
    (expect (.mark sign)).Rests x post ↔
      (x.kind ≠ .mark sign → post (.refuses [.token (.mark sign)])) :=
  rests_expect nofun

@[simp ↓] theorem rests_expect_keyword {word : Keyword} {post : Verdict Unit → Prop} :
    (expect (.keyword word)).Rests x post ↔
      (x.kind ≠ .keyword word → post (.refuses [.token (.keyword word)])) :=
  rests_expect nofun

theorem rests_accept {kind : TokenKind} {post : Verdict Bool → Prop} (hend : kind ≠ .endOfInput) :
    (accept kind).Rests x post ↔ (x.kind ≠ kind → post (.passes false)) := by
  simp only [accept, rests_bind, rests_peek, then_passes]
  split
  · next h => simp [h, hend]
  · next h => simp [h]

@[simp ↓] theorem rests_accept_mark {sign : Mark} {post : Verdict Bool → Prop} :
    (accept (.mark sign)).Rests x post ↔ (x.kind ≠ .mark sign → post (.passes false)) :=
  rests_accept nofun

@[simp ↓] theorem rests_accept_keyword {word : Keyword} {post : Verdict Bool → Prop} :
    (accept (.keyword word)).Rests x post ↔ (x.kind ≠ .keyword word → post (.passes false)) :=
  rests_accept nofun

@[simp ↓] theorem rests_identifier {role : NameRole} {post : Verdict String → Prop} :
    (identifier role).Rests x post ↔ (x.isName = false → post (.refuses [.name role])) := by
  obtain ⟨kind, text⟩ := x
  simp only [identifier, rests_bind, rests_look, then_passes]
  cases text <;> cases kind <;> simp [Lexeme.isName]

@[simp ↓] theorem rests_leaf {kind : NodeKind} {post : Verdict NodeId → Prop} :
    (leaf kind).Rests x post ↔ ∀ id, post (.passes id) := by
  simp [leaf]

@[simp ↓] theorem rests_child {parent : NodeId} {rule : Rule} {post : Verdict Unit → Prop}
    (hrule : rule ≠ .compilationUnit) : (child parent rule).Rests x post ↔
      (rule.starts x.kind = false → post (.refuses rule.asks)) := by
  simp [child, hrule]

end Programs

end Reading

end GoloSyntax
