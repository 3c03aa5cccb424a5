import GoloSyntax.Grammar.Parse
import GoloSyntax.Proofs.Token.Texts
import GoloSyntax.Proofs.Tree.Construct

/-! # Carrying out programs

What holds of every reading program, whatever it reads.  `run_bind` takes a run of two
programs apart.  A run only ever goes forward (`State.Grows`): what is left to read
becomes shorter, texts keep their numbers, nodes keep theirs.
-/
namespace GoloSyntax

/-- The error that reading stopped with, if it did. -/
def failure? {α : Type} : Except ParseError α → Option ParseError
  | .ok _ => none
  | .error e => some e

/-- What is tested of a result holds of one that is given. -/
theorem exists_ok_of_any {ε α : Type} {x : Except ε α} {fact : α → Bool}
    (h : x.toOption.any fact) : ∃ a, x = .ok a ∧ fact a := by
  cases x with
  | error e => cases h
  | ok a => exact ⟨a, rfl, h⟩

namespace Reading

/-- What a run may do to a state. -/
structure State.Grows (s s' : State) : Prop where
  rest : s'.rest <:+ s.rest
  symbols : s.tree.symbols.Within s'.tree.symbols
  size : s.tree.size ≤ s'.tree.size

namespace State.Grows

variable {s s' s'' : State}

theorem refl (s : State) : s.Grows s :=
  ⟨List.suffix_rfl, .refl _, Nat.le_refl _⟩

theorem trans (h : s.Grows s') (h' : s'.Grows s'') : s.Grows s'' :=
  ⟨h'.rest.trans h.rest, h.symbols.trans h'.symbols, Nat.le_trans h.size h'.size⟩

end State.Grows

@[simp] theorem symbols_modify (t : Tree) (id : NodeId) (f : Node → Node) :
    (t.modify id f).symbols = t.symbols := rfl

@[simp] theorem symbols_push (t : Tree) (kind : NodeKind) (span : Span) :
    (t.push kind span).2.symbols = t.symbols := rfl

@[simp] theorem symbols_attach (t : Tree) (parent child : NodeId) :
    (t.attach parent child).symbols = t.symbols := by
  cases h : (t.node parent).lastChild <;> simp [Tree.attach, h]

variable {c : Context} {start : Position} {s s' s'' : State} {α β σ : Type}

theorem grows_advance (s : State) : s.Grows s.advance := by
  obtain ⟨rest, lastEnd, tree⟩ := s
  cases rest with
  | nil => exact .refl _
  | cons token rest => exact ⟨List.suffix_cons token rest, .refl _, Nat.le_refl _⟩

theorem grows_perform (action : Step) {x : action.Answer}
    (h : perform c start action s = .ok (x, s')) : s.Grows s' := by
  obtain ⟨rest, lastEnd, tree⟩ := s
  cases action with
  | look | lookBehind =>
    obtain ⟨-, rfl⟩ := Prod.mk.inj (Except.ok.inj h)
    exact .refl _
  | advance =>
    obtain ⟨-, rfl⟩ := Prod.mk.inj (Except.ok.inj h)
    exact grows_advance _
  | skipNewlines =>
    obtain ⟨-, rfl⟩ := Prod.mk.inj (Except.ok.inj h)
    exact ⟨List.dropWhile_suffix _, .refl _, Nat.le_refl _⟩
  | openNode kind =>
    simp only [perform] at h
    split at h
    · cases h
    · obtain ⟨-, rfl⟩ := Prod.mk.inj (Except.ok.inj h)
      exact ⟨List.suffix_rfl, .refl _, by simp⟩
  | closeNode id | setKind id kind =>
    obtain ⟨-, rfl⟩ := Prod.mk.inj (Except.ok.inj h)
    exact ⟨List.suffix_rfl, .refl _, by simp [Tree.setSpan, Tree.setKind]⟩
  | attach parent child =>
    obtain ⟨-, rfl⟩ := Prod.mk.inj (Except.ok.inj h)
    exact ⟨List.suffix_rfl, by simpa using .refl _, by simp⟩
  | intern text =>
    obtain ⟨-, rfl⟩ := Prod.mk.inj (Except.ok.inj h)
    exact ⟨List.suffix_rfl, SymbolTable.within_intern _ _, Nat.le_refl _⟩
  | reject _ | refuseLiteral _ => cases h

variable {enter : Rule → Position → State → Except ParseError (NodeId × State)}

/-- What each constructor of a program is carried out as. -/
theorem run_eq (m : Reading α) : run c enter m start s =
    match m with
    | .done answer => .ok (answer, s)
    | .step action next =>
      (perform c start action s).bind fun r => run c enter (next r.1) start r.2
    | .call rule next => (enter rule start s).bind fun r => run c enter (next r.1) start r.2
    | .frame body next =>
      (run c enter body (s.current c).span.start s).bind fun r =>
        run c enter (next r.1) start r.2
    | .repeat round state next =>
      (iterate c (fun x s => run c enter (round x) start s) (c.tokenCount + 1) state s).bind
        fun r => run c enter (next r.1) start r.2 := by
  -- The match of the statement is reduced first, so that the same outcome stands on both sides.
  cases m with
  | done answer => rfl
  | step action next =>
    rw [run]
    dsimp only
    rcases perform c start action s with e | ⟨x, s⟩ <;> rfl
  | call rule next =>
    rw [run]
    dsimp only
    rcases enter rule start s with e | ⟨id, s⟩ <;> rfl
  | frame body next =>
    rw [run]
    dsimp only
    rcases run c enter body (s.current c).span.start s with e | ⟨x, s⟩ <;> rfl
  | «repeat» round state next =>
    rw [run]
    dsimp only
    rcases iterate c (fun x s => run c enter (round x) start s) (c.tokenCount + 1) state s
      with e | ⟨x, s⟩ <;> rfl

theorem run_step (action : Step) (next : action.Answer → Reading α) :
    run c enter (.step action next) start s =
      (perform c start action s).bind fun r => run c enter (next r.1) start r.2 :=
  run_eq _

theorem run_call (rule : Rule) (next : NodeId → Reading α) :
    run c enter (.call rule next) start s =
      (enter rule start s).bind fun r => run c enter (next r.1) start r.2 :=
  run_eq _

theorem run_frame (body : Reading β) (next : β → Reading α) :
    run c enter (.frame body next) start s =
      (run c enter body (s.current c).span.start s).bind fun r =>
        run c enter (next r.1) start r.2 :=
  run_eq _

theorem run_repeat (round : σ → Reading (Round σ β)) (state : σ) (next : β → Reading α) :
    run c enter (.repeat round state next) start s =
      (iterate c (fun x s => run c enter (round x) start s) (c.tokenCount + 1) state s).bind
        fun r => run c enter (next r.1) start r.2 :=
  run_eq _

theorem iterate_succ (round : σ → State → Except ParseError (Round σ β × State)) (n : Nat) (x : σ)
    (s : State) : iterate c round (n + 1) x s = (round x s).bind fun r =>
      match r with
      | (.again y, s) => iterate c round n y s
      | (.stop a, s) => .ok (a, s) := by
  rw [iterate]
  rcases round x s with e | ⟨y | a, s⟩ <;> rfl

/-- What a repetition answers, either its first round answers or what is left of it does. -/
theorem iterate_succ_ok_iff {round : σ → State → Except ParseError (Round σ β × State)} {n : Nat}
    {x : σ} {b : β} : iterate c round (n + 1) x s = .ok (b, s') ↔
      round x s = .ok (.stop b, s') ∨
        ∃ y s₁, round x s = .ok (.again y, s₁) ∧ iterate c round n y s₁ = .ok (b, s') := by
  rw [iterate_succ]
  rcases round x s with e | ⟨y | a, s₁⟩ <;> simp [Except.bind]

theorem run_repeating (round : σ → Reading (Round σ β)) (x : σ) :
    run c enter (repeating x round) start s =
      iterate c (fun x s => run c enter (round x) start s) (c.tokenCount + 1) x s := by
  rw [repeating, run_repeat]
  rcases iterate c (fun x s => run c enter (round x) start s) (c.tokenCount + 1) x s
    with e | ⟨b, s₁⟩ <;> rfl

section Related

variable {R : State → State → Prop} (hrefl : ∀ s, R s s)
  (htrans : ∀ {s s' s''}, R s s' → R s' s'' → R s s'')

include htrans in
theorem related_iterate {round : σ → State → Except ParseError (Round σ β × State)}
    (hround : ∀ x s y s', round x s = .ok (y, s') → R s s') {n : Nat} {x : σ} {b : β}
    (h : iterate c round n x s = .ok (b, s')) : R s s' := by
  induction n generalizing x s with
  | zero => cases h
  | succ n ih =>
    rcases iterate_succ_ok_iff.mp h with hr | ⟨y, s₁, hr, h⟩
    · exact hround _ _ _ _ hr
    · exact htrans (hround _ _ _ _ hr) (ih h)

variable (hperform : ∀ {start s s'} (action : Step) {x : action.Answer},
  perform c start action s = .ok (x, s') → R s s')

include hrefl htrans hperform

/-- How every step and every call relates two states, every run does. -/
theorem related_run (henter : ∀ {rule p s id s'}, enter rule p s = .ok (id, s') → R s s')
    (m : Reading α) {a : α} (h : run c enter m start s = .ok (a, s')) : R s s' := by
  induction m generalizing start s s' with
  | done answer =>
    obtain ⟨-, rfl⟩ := Prod.mk.inj (Except.ok.inj h)
    exact hrefl _
  | step action next ih =>
    simp only [run] at h
    split at h
    · cases h
    · next x s₁ hstep => exact htrans (hperform action hstep) (ih x h)
  | call rule next ih =>
    simp only [run] at h
    split at h
    · cases h
    · next id s₁ hcall => exact htrans (henter hcall) (ih id h)
  | frame body next ihbody ih =>
    simp only [run] at h
    split at h
    · cases h
    · next x s₁ hbody => exact htrans (ihbody hbody) (ih x h)
  | «repeat» round state next ihround ih =>
    simp only [run] at h
    split at h
    · cases h
    · next x s₁ hloop =>
      exact htrans (related_iterate htrans (fun x s y s' hr => ihround x hr) hloop) (ih x h)

theorem related_enter {levels : Nat} {rule : Rule} {p : Position} {id : NodeId}
    (h : Rule.enter c levels rule p s = .ok (id, s')) : R s s' := by
  induction levels generalizing rule p s id s' with
  | zero => cases h
  | succ levels ih => exact related_run hrefl htrans hperform ih rule.reading h

end Related

theorem grows_iterate {round : σ → State → Except ParseError (Round σ β × State)}
    (hround : ∀ x s y s', round x s = .ok (y, s') → s.Grows s') {n : Nat} {x : σ} {b : β}
    (h : iterate c round n x s = .ok (b, s')) : s.Grows s' :=
  related_iterate State.Grows.trans hround h

theorem grows_run (henter : ∀ {rule p s id s'}, enter rule p s = .ok (id, s') → s.Grows s')
    (m : Reading α) {a : α} (h : run c enter m start s = .ok (a, s')) : s.Grows s' :=
  related_run State.Grows.refl State.Grows.trans grows_perform henter m h

variable {levels : Nat} {rule : Rule} {p : Position} {id : NodeId}

theorem grows_enter (h : Rule.enter c levels rule p s = .ok (id, s')) : s.Grows s' :=
  related_enter State.Grows.refl State.Grows.trans grows_perform h

theorem size_perform (action : Step) {x : action.Answer}
    (h : perform c start action s = .ok (x, s')) : s'.tree.size ≤ max s.tree.size c.maxNodes := by
  obtain ⟨rest, lastEnd, tree⟩ := s
  cases action with
  | look | lookBehind | skipNewlines | intern text =>
    obtain ⟨-, rfl⟩ := Prod.mk.inj (Except.ok.inj h)
    exact Nat.le_max_left _ _
  | advance =>
    obtain ⟨-, rfl⟩ := Prod.mk.inj (Except.ok.inj h)
    cases rest <;> exact Nat.le_max_left _ _
  | openNode kind =>
    simp only [perform] at h
    split at h
    · cases h
    · obtain ⟨-, rfl⟩ := Prod.mk.inj (Except.ok.inj h)
      simp only [Tree.size_push]
      omega
  | closeNode id | setKind id kind | attach parent child =>
    obtain ⟨-, rfl⟩ := Prod.mk.inj (Except.ok.inj h)
    refine Nat.le_trans (Nat.le_of_eq ?_) (Nat.le_max_left _ _)
    simp [Tree.setSpan, Tree.setKind]
  | reject _ | refuseLiteral _ => cases h

/-- A run makes no more nodes than are allowed. -/
theorem size_enter (h : Rule.enter c levels rule p s = .ok (id, s')) :
    s'.tree.size ≤ max s.tree.size c.maxNodes := by
  refine related_enter (R := fun s s' => s'.tree.size ≤ max s.tree.size c.maxNodes)
    (fun s => Nat.le_max_left _ _) ?_ size_perform h
  intro s s' s'' h h'
  omega

/-- One program after the other. -/
theorem run_bind (m : Reading α) (f : α → Reading β) :
    run c enter (m >>= f) start s =
      match run c enter m start s with
      | .error e => .error e
      | .ok (a, s) => run c enter (f a) start s := by
  show run c enter (m.bind f) start s = _
  induction m generalizing s with
  | done answer => rfl
  | step action next ih =>
    simp only [Reading.bind, run]
    split
    · rfl
    · exact ih _ _
  | call rule next ih =>
    simp only [Reading.bind, run]
    split
    · rfl
    · exact ih _ _
  | frame body next _ ih =>
    simp only [Reading.bind, run]
    split
    · rfl
    · exact ih _ _
  | «repeat» round state next _ ih =>
    simp only [Reading.bind, run]
    split
    · rfl
    · exact ih _ _

theorem run_look_bind (f : Lexeme → Reading α) : run c enter (look >>= f) start s =
    run c enter (f ((s.current c).lexeme s.tree.symbols)) start s := by
  rw [run_bind]
  rfl

theorem run_peek_bind (f : TokenKind → Reading α) :
    run c enter (peek >>= f) start s = run c enter (f (s.current c).kind) start s := by
  rw [run_bind]
  rfl

theorem run_bind_ok {m : Reading α} {f : α → Reading β} {b : β} :
    run c enter (m >>= f) start s = .ok (b, s'') ↔
      ∃ a s', run c enter m start s = .ok (a, s') ∧ run c enter (f a) start s' = .ok (b, s'') := by
  rw [run_bind]
  cases run c enter m start s with
  | error e => simp
  | ok r =>
    obtain ⟨a, s'⟩ := r
    simp

end Reading

end GoloSyntax
