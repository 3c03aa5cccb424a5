import GoloSyntax.Proofs.Reading.Phrases

/-! # At the end of input

A program that is carried out where nothing is left to read makes no headway.  It gives up
because of the end of input (`Context.EndFault`) or leaves everything as it is, which
`Context.Idles` says of a program.

Every rule but a compilation unit needs a token.  Some rules call others before they look at
one: `Rule.reach` is how many levels a rule needs until it has found that there is none
(`enter_exhausted`), and as many are needed by any successful run of the rule
(`reach_le_of_enter`); so a rule that succeeds on more input does not run into the depth limit
on less.
-/
namespace GoloSyntax

/-- The levels that a rule needs at the end of input until it looks for a token. -/
def Rule.reach : Rule → Nat
  | .statement => 5
  | .expression _ => 4
  | .unary => 3
  | .chain => 2
  | _ => 1

/-- Whether a rule finds first of all that there is nothing to read.  A compilation unit looks
for its module first, and a function makes its node. -/
def Rule.isPrompt : Rule → Bool
  | .compilationUnit | .function => false
  | _ => true

namespace Reading

/-- Giving up because of the end of input. -/
def Context.EndFault (c : Context) (e : ParseError) : Prop :=
  e.position = c.endToken.span.start ∧ ∃ expected text,
    e.fault = .unexpected expected .endOfInput text

/-- What comes of a run at the end of input: a fault, or an answer and at most `size` nodes. -/
inductive Context.Settles (c : Context) {α : Type} (post : α → Prop) (size : Nat) :
    Except ParseError (α × State) → Prop where
  | ok {a : α} {s : State} (hrest : s.rest = []) (hsize : s.tree.size ≤ size) (hpost : post a) :
      Settles c post size (.ok (a, s))
  | error {e : ParseError} (h : c.EndFault e) : Settles c post size (.error e)

/-- A program that makes no nodes at the end of input; `n` levels are left for its calls. -/
def Context.Idles (c : Context) (n : Nat) {α : Type} (m : Reading α) (post : α → Prop) : Prop :=
  ∀ p s, s.rest = [] → c.Settles post s.tree.size (run c (Rule.enter c n) m p s)

/-- The last round of a repetition. -/
def Round.Stops {σ β : Type} : Round σ β → Prop
  | .again _ => False
  | .stop _ => True

variable {c : Context} {n levels : Nat} {p : Position} {s s' : State} {α β : Type}
  {enter : Rule → Position → State → Except ParseError (NodeId × State)}

theorem current_of_exhausted (h : s.rest = []) : s.current c = c.endToken := by
  simp [State.current, h]

theorem rest_advance_of_exhausted (h : s.rest = []) : s.advance = s := by
  obtain ⟨rest, lastEnd, tree⟩ := s
  subst h
  rfl

section Idles

variable {post : α → Prop} {post' : β → Prop} (hend : c.endToken.kind = .endOfInput)

theorem Context.Settles.imp {post' : α → Prop} {size size' : Nat}
    {x : Except ParseError (α × State)} (h : c.Settles post size x)
    (hpost : ∀ a, post a → post' a) (hsize : size ≤ size') : c.Settles post' size' x := by
  cases h with
  | ok hrest hle ha => exact .ok hrest (Nat.le_trans hle hsize) (hpost _ ha)
  | error he => exact .error he

include hend in
theorem settles_reject (h : s.rest = []) (expected : List Expected) {size : Nat} :
    c.Settles post size (run c enter (reject expected : Reading α) p s) := by
  refine .error ⟨?_, expected, (s.current c).text? s.tree.symbols, ?_⟩
  · simp [current_of_exhausted h]
  · simp [current_of_exhausted h, hend]

theorem Context.Idles.pure {a : α} (h : post a) : c.Idles n (pure a) post :=
  fun _ _ hrest => .ok hrest (Nat.le_refl _) h

theorem Context.Idles.bind {m : Reading α} {f : α → Reading β}
    (hm : c.Idles n m fun a => c.Idles n (f a) post') : c.Idles n (m >>= f) post' := by
  intro p s hrest
  have hx := hm p s hrest
  rw [run_bind]
  revert hx
  rcases run c (Rule.enter c n) m p s with e | ⟨a, s₁⟩
  · rintro (_ | ⟨he⟩)
    exact .error he
  · rintro (⟨hrest', hsize, ha⟩)
    exact (ha p s₁ hrest').imp (fun _ h => h) hsize

theorem Context.Idles.imp {post'' : α → Prop} {m : Reading α} (h : c.Idles n m post)
    (hpost : ∀ a, post a → post'' a) : c.Idles n m post'' :=
  fun p s hrest => (h p s hrest).imp hpost (Nat.le_refl _)

theorem Context.Idles.closeNode {id : NodeId} {post : NodeId → Prop} (h : post id) :
    c.Idles n (closeNode id) post :=
  fun _ _ hrest => .ok hrest (Nat.le_of_eq (Tree.size_modify _ _ _)) h

theorem Context.Idles.skipNewlines {post : Unit → Prop} (h : post ()) :
    c.Idles n skipNewlines post := by
  rintro p ⟨rest, lastEnd, tree⟩ rfl
  exact .ok rfl (Nat.le_refl _) h

include hend

theorem Context.Idles.reject (expected : List Expected) :
    c.Idles n (reject expected : Reading α) post :=
  fun _ _ hrest => settles_reject hend hrest expected

theorem run_peek_exhausted (h : s.rest = []) {f : TokenKind → Reading α} :
    run c enter (peek >>= f) p s = run c enter (f .endOfInput) p s := by
  rw [run_peek_bind, current_of_exhausted h, hend]

theorem Context.Idles.peek {post : TokenKind → Prop} (h : post .endOfInput) :
    c.Idles n peek post := by
  intro p s hrest
  refine .ok hrest (Nat.le_refl _) ?_
  simpa [current_of_exhausted hrest, Token.lexeme, hend] using h

theorem Context.Idles.look {post : Lexeme → Prop} (h : ∀ text, post ⟨.endOfInput, text⟩) :
    c.Idles n look post := by
  intro p s hrest
  refine .ok hrest (Nat.le_refl _) ?_
  rw [current_of_exhausted hrest, Token.lexeme, hend]
  exact h _

theorem Context.Idles.expect {kind : TokenKind} (hkind : kind ≠ .endOfInput) {post : Unit → Prop} :
    c.Idles n (expect kind) post :=
  .bind (.peek hend (by
    rw [if_neg hkind.symm]
    exact .reject hend _))

theorem Context.Idles.mark {sign : Mark} {post : Unit → Prop} :
    c.Idles n (Reading.expect (.mark sign)) post :=
  .expect hend (by nofun)

theorem Context.Idles.keyword {word : Keyword} {post : Unit → Prop} :
    c.Idles n (Reading.expect (.keyword word)) post :=
  .expect hend (by nofun)

theorem Context.Idles.accept {kind : TokenKind} (hkind : kind ≠ .endOfInput) {post : Bool → Prop}
    (h : post false) : c.Idles n (accept kind) post :=
  .bind (.peek hend (by
    rw [if_neg hkind.symm]
    exact .pure h))

theorem Context.Idles.identifier {role : NameRole} {post : String → Prop} :
    c.Idles n (identifier role) post :=
  .bind (.look hend fun _ => .reject hend _)

end Idles

/-! ## Levels -/

theorem exists_of_enter {rule : Rule} {id : NodeId}
    (h : Rule.enter c levels rule p s = .ok (id, s')) : ∃ n, levels = n + 1 ∧
      run c (Rule.enter c n) rule.reading (if rule.inheritsStart then p else (s.current c).span.start)
        s = .ok (id, s') := by
  cases levels with
  | zero => cases h
  | succ n => exact ⟨n, rfl, h⟩

theorem exists_of_call {rule : Rule} {f : NodeId → Reading α} {a : α}
    (h : run c enter (Reading.enter rule >>= f) p s = .ok (a, s')) :
    ∃ id s₁, enter rule p s = .ok (id, s₁) := by
  obtain ⟨id, s₁, hcall, -⟩ := run_bind_ok.mp h
  rw [Reading.enter, run] at hcall
  split at hcall
  · cases hcall
  · next id' s₂ h' => exact ⟨id', s₂, h'⟩

theorem run_enter_eq (rule : Rule) : run c enter (Reading.enter rule) p s = enter rule p s := by
  rw [Reading.enter, run]
  rcases enter rule p s with e | ⟨id, s₁⟩ <;> rfl

/-- An expression begins with an operand, which takes three more levels at least. -/
theorem reach_le_of_operand {rule : Rule} {id : NodeId}
    (hrule : rule = .chain ∨ rule = .unary ∨ ∃ least, rule = .expression least)
    (h : Rule.enter c levels rule p s = .ok (id, s')) : rule.reach ≤ levels := by
  induction levels generalizing rule p s id s' with
  | zero => cases h
  | succ n ih =>
    rcases hrule with rfl | rfl | ⟨least, rfl⟩
    · obtain ⟨id₁, s₁, hprimary⟩ := exists_of_call h
      obtain ⟨m, rfl, -⟩ := exists_of_enter hprimary
      simp [Rule.reach]
    · obtain ⟨kind, s₁, -, hbranch⟩ := run_bind_ok.mp h
      split at hbranch
      · rw [run_enter_eq] at hbranch
        have hchain := ih (.inl rfl) hbranch
        simp only [Rule.reach] at hchain ⊢
        omega
      · obtain ⟨_, s₂, -, hbranch⟩ := run_bind_ok.mp hbranch
        obtain ⟨node, s₃, -, hbranch⟩ := run_bind_ok.mp hbranch
        obtain ⟨_, s₄, hchild, -⟩ := run_bind_ok.mp hbranch
        obtain ⟨id₁, s₅, hoperand⟩ := exists_of_call hchild
        have hexpression := ih (.inr (.inr ⟨_, rfl⟩)) hoperand
        simp only [Rule.reach] at hexpression ⊢
        omega
    · obtain ⟨id₁, s₁, hunary⟩ := exists_of_call h
      have hoperand := ih (.inr (.inl rfl)) hunary
      simp only [Rule.reach] at hoperand ⊢
      omega

/-- A rule that succeeds has the levels that it needs to find out that there is nothing to
read; only a statement may be shorter than any expression. -/
theorem reach_le_of_enter {rule : Rule} {id : NodeId} (hrule : rule ≠ .statement)
    (h : Rule.enter c levels rule p s = .ok (id, s')) : rule.reach ≤ levels := by
  obtain ⟨n, rfl, -⟩ := exists_of_enter h
  cases rule with
  | statement => exact absurd rfl hrule
  | chain | unary | expression => exact reach_le_of_operand (by simp) h
  | _ => exact Nat.le_add_left 1 n

/-- A value that is bound to a name takes an expression. -/
theorem reach_le_of_binding {kind : String → NodeKind} {id : NodeId}
    (h : run c (Rule.enter c n) (Grammar.binding kind) p s = .ok (id, s')) : 4 ≤ n := by
  obtain ⟨name, s₁, -, h⟩ := run_bind_ok.mp h
  obtain ⟨_, s₂, -, h⟩ := run_bind_ok.mp h
  obtain ⟨_, s₃, -, h⟩ := run_bind_ok.mp h
  obtain ⟨node, s₄, -, h⟩ := run_bind_ok.mp h
  obtain ⟨_, s₅, hchild, -⟩ := run_bind_ok.mp h
  obtain ⟨id₁, s₆, hvalue⟩ := exists_of_call hchild
  exact reach_le_of_operand (.inr (.inr ⟨0, rfl⟩)) hvalue

theorem reach_le_of_assignment {id : NodeId}
    (h : Rule.enter c levels .assignment p s = .ok (id, s')) : 5 ≤ levels := by
  obtain ⟨n, rfl, h⟩ := exists_of_enter h
  exact Nat.succ_le_succ (reach_le_of_binding h)

theorem reach_le_of_letOrVar {id : NodeId}
    (h : Rule.enter c levels .letOrVar p s = .ok (id, s')) : 5 ≤ levels := by
  obtain ⟨n, rfl, h⟩ := exists_of_enter h
  refine Nat.succ_le_succ ?_
  obtain ⟨kind, s₁, -, h⟩ := run_bind_ok.mp h
  split at h
  · obtain ⟨_, s₂, -, h⟩ := run_bind_ok.mp h
    exact reach_le_of_binding h
  · obtain ⟨_, s₂, -, h⟩ := run_bind_ok.mp h
    exact reach_le_of_binding h
  · cases h

/-- A rule that begins with a token gives up for want of it. -/
theorem endFault_of_idles {rule : Rule} (h : c.Idles n rule.reading fun _ => False)
    (hrest : s.rest = []) : ∃ e, Rule.enter c (n + 1) rule p s = .error e ∧ c.EndFault e := by
  have hx := h (if rule.inheritsStart then p else (s.current c).span.start) s hrest
  rw [Rule.enter]
  revert hx
  generalize run c (Rule.enter c n) rule.reading _ s = x
  rintro (⟨-, -, h⟩ | ⟨he⟩)
  · exact h.elim
  · exact ⟨_, rfl, he⟩

/-- A call of a rule that gives up. -/
theorem Context.Idles.call {rule : Rule} {post : NodeId → Prop} (h : ∀ {p s}, s.rest = [] →
      ∃ e, Rule.enter c n rule p s = .error e ∧ c.EndFault e) :
    c.Idles n (Reading.enter rule) post := by
  intro p s hrest
  obtain ⟨e, hrun, he⟩ := h hrest
  rw [run_enter_eq, hrun]
  exact .error he

/-- Where nothing is left, a rule with the levels that it needs finds that out. -/
theorem enter_exhausted (hend : c.endToken.kind = .endOfInput) {rule : Rule}
    (hrule : rule.isPrompt) (hlevels : rule.reach ≤ levels) (hrest : s.rest = []) :
    ∃ e, Rule.enter c levels rule p s = .error e ∧ c.EndFault e := by
  induction levels generalizing rule p s with
  | zero => cases rule <;> cases hlevels
  | succ n ih =>
    have hcall {rule : Rule} {post : NodeId → Prop} (hrule : rule.isPrompt)
        (hlevels : rule.reach ≤ n) : c.Idles n (enter rule) post :=
      .call fun {p s} hrest => ih hrule hlevels hrest
    have hlevels' : rule.reach - 1 ≤ n := Nat.sub_le_of_le_add hlevels
    refine endFault_of_idles ?_ hrest
    cases rule with
    | compilationUnit | function => cases hrule
    | functionDeclaration =>
      exact .bind (.accept hend (by nofun) (.bind (.keyword hend)))
    | statement => exact .bind (.peek hend (hcall rfl hlevels'))
    | letOrVar => exact .bind (.peek hend (.reject hend _))
    | assignment => exact .bind (.identifier hend)
    | expression least => exact .bind (hcall rfl hlevels')
    | unary => exact .bind (.peek hend (hcall rfl hlevels'))
    | chain => exact .bind (hcall rfl hlevels')
    | primary => exact .bind (.look hend fun _ => .reject hend _)
    | named => exact .bind (.bind (.identifier hend))
    | block | arms | arguments | collection => exact .bind (.mark hend)
    | _ => exact .bind (.keyword hend)

/-- With fewer levels than it needs an expression does not come to look for a token. -/
theorem enter_shallow {rule : Rule} (hrule : rule = .chain ∨ rule = .unary ∨
      ∃ least, rule = .expression least) (hend : c.endToken.kind = .endOfInput)
    (hlevels : levels < rule.reach) (hrest : s.rest = []) : ∃ e, Rule.enter c levels rule p s = .error e ∧
      e = ⟨.tooDeep c.maxDepth, c.endToken.span.start⟩ := by
  refine ⟨_, ?_, rfl⟩
  induction levels generalizing rule p with
  | zero => simp [Rule.enter, State.fail, current_of_exhausted hrest]
  | succ n ih =>
    have hcall {rule : Rule} {f : NodeId → Reading NodeId} {p : Position}
        (h : Rule.enter c n rule p s = .error ⟨.tooDeep c.maxDepth, c.endToken.span.start⟩) :
        run c (Rule.enter c n) (Reading.enter rule >>= f) p s =
          .error ⟨.tooDeep c.maxDepth, c.endToken.span.start⟩ := by
      rw [run_bind, run_enter_eq, h]
    rcases hrule with rfl | rfl | ⟨least, rfl⟩
    · obtain rfl : n = 0 := by simp only [Rule.reach] at hlevels; omega
      exact hcall (by simp [Rule.enter, State.fail, current_of_exhausted hrest])
    · show run c (Rule.enter c n) (peek >>= _) _ s = _
      rw [run_peek_exhausted hend hrest]
      show run c (Rule.enter c n) (Reading.enter .chain) _ s = _
      rw [run_enter_eq]
      exact ih (.inl rfl) (by simp only [Rule.reach] at *; omega)
    · exact hcall (ih (.inr (.inl rfl)) (by simp only [Rule.reach] at *; omega))

/-! ## Nodes -/

theorem run_openNode_ok (kind : NodeKind) (hsize : s.tree.size < c.maxNodes) :
    run c enter (openNode kind) p s =
      .ok (⟨s.tree.size⟩, { s with tree := (s.tree.push kind (.empty p)).2 }) := by
  obtain ⟨rest, lastEnd, tree⟩ := s
  refine (run_step (.openNode kind) .done).trans ?_
  rw [perform, if_neg (Nat.not_le_of_lt hsize)]
  rfl

theorem run_openNode_full (kind : NodeKind) (hsize : c.maxNodes ≤ s.tree.size) :
    run c enter (openNode kind) p s = s.fail c (.tooManyNodes s.tree.size c.maxNodes) := by
  refine (run_step (.openNode kind) .done).trans ?_
  rw [perform, if_pos hsize]
  rfl

/-- A run makes no more nodes than are allowed. -/
theorem size_run {m : Reading α} {a : α} (h : run c (Rule.enter c n) m p s = .ok (a, s')) :
    s'.tree.size ≤ max s.tree.size c.maxNodes := by
  refine related_run (R := fun s s' => s'.tree.size ≤ max s.tree.size c.maxNodes)
    (fun s => Nat.le_max_left _ _) ?_ size_perform size_enter m h
  intro s s' s'' h h'
  omega

theorem size_lt_of_openNode {kind : NodeKind} {f : NodeId → Reading α} {a : α}
    (h : run c (Rule.enter c n) (openNode kind >>= f) p s = .ok (a, s')) :
    s.tree.size < s'.tree.size := by
  obtain ⟨id, s₁, hopen, hrest⟩ := run_bind_ok.mp h
  have hgrows : s₁.tree.size ≤ s'.tree.size := (grows_run grows_enter _ hrest).size
  rcases Nat.lt_or_ge s.tree.size c.maxNodes with hroom | hfull
  · rw [run_openNode_ok kind hroom] at hopen
    obtain ⟨-, rfl⟩ := Prod.mk.inj (Except.ok.inj hopen)
    rw [Tree.size_push] at hgrows
    exact hgrows
  · rw [run_openNode_full kind hfull] at hopen
    cases hopen

theorem size_lt_of_bind {m : Reading α} {f : α → Reading β} {b : β}
    (hf : ∀ {a s s' b}, run c (Rule.enter c n) (f a) p s = .ok (b, s') → s.tree.size < s'.tree.size)
    (h : run c (Rule.enter c n) (m >>= f) p s = .ok (b, s')) : s.tree.size < s'.tree.size := by
  obtain ⟨a, s₁, hm, hrest⟩ := run_bind_ok.mp h
  exact Nat.lt_of_le_of_lt (grows_run grows_enter m hm).size (hf hrest)

theorem lexeme_of_identifier {role : NameRole} {text : String}
    (h : run c enter (identifier role) p s = .ok (text, s')) :
    (s.current c).lexeme s.tree.symbols = ⟨.identifier, some text⟩ := by
  rw [identifier, run_look_bind] at h
  split at h
  · next text' hx =>
    cases h
    exact hx
  · cases h

/-- What is read in place of an assignment where nothing follows its name. -/
theorem facts_of_assignment {id : NodeId} (h : Rule.enter c levels .assignment p s = .ok (id, s')) :
    5 ≤ levels ∧ s.tree.size < s'.tree.size ∧
      ∃ text, (s.current c).lexeme s.tree.symbols = ⟨.identifier, some text⟩ := by
  refine ⟨reach_le_of_assignment h, ?_, ?_⟩
  · obtain ⟨n, rfl, h⟩ := exists_of_enter h
    refine size_lt_of_bind (fun h => ?_) h
    refine size_lt_of_bind (fun h => ?_) h
    exact size_lt_of_bind size_lt_of_openNode h
  · obtain ⟨n, rfl, h⟩ := exists_of_enter h
    obtain ⟨name, s₁, hname, -⟩ := run_bind_ok.mp h
    exact ⟨name, lexeme_of_identifier hname⟩

theorem size_lt_of_collection {type : CollectionKind} {id : NodeId}
    (h : Rule.enter c levels (.collection type) p s = .ok (id, s')) :
    s.tree.size < s'.tree.size := by
  obtain ⟨n, rfl, h⟩ := exists_of_enter h
  exact size_lt_of_bind size_lt_of_openNode h

theorem run_expect (kind : TokenKind) : run c enter (expect kind) p s =
    if (s.current c).kind = kind then .ok ((), s.advance)
    else run c enter (reject [.token kind]) p s := by
  rw [expect, run_bind]
  show run c enter (if (s.current c).kind = kind then advance else reject [.token kind]) p s = _
  split <;> rfl

theorem run_accept (kind : TokenKind) : run c enter (accept kind) p s =
    if (s.current c).kind = kind then .ok (true, s.advance) else .ok (false, s) := by
  rw [accept, run_bind]
  show run c enter (if (s.current c).kind = kind then do advance; return true else return false) p s = _
  split <;> rfl

/-- A repetition has at least one round. -/
theorem exists_of_repeating {σ : Type} {round : σ → Reading (Round σ β)} {x : σ}
    {f : β → Reading α} {a : α}
    (h : run c enter (repeating x round >>= f) p s = .ok (a, s')) :
    ∃ y s₁, run c enter (round x) p s = .ok (y, s₁) := by
  obtain ⟨b, s₁, hloop, -⟩ := run_bind_ok.mp h
  rw [run_repeating] at hloop
  rcases iterate_succ_ok_iff.mp hloop with hround | ⟨y, s₂, hround, -⟩
  · exact ⟨_, _, hround⟩
  · exact ⟨_, _, hround⟩

theorem run_repeating_error {σ : Type} {round : σ → Reading (Round σ β)} {x : σ}
    {f : β → Reading α} {e : ParseError} (h : run c enter (round x) p s = .error e) :
    run c enter (repeating x round >>= f) p s = .error e := by
  rw [run_bind, run_repeating, iterate, h]

/-! ## A single name -/

/-- A program goes on where a call has come to the end of input. -/
theorem settles_enter_bind {rule : Rule} {f : NodeId → Reading α} {size : Nat}
    {post : NodeId → Prop} {post' : α → Prop}
    (hcall : c.Settles post size (Rule.enter c n rule p s))
    (hf : ∀ id, c.Idles n (f id) post') :
    c.Settles post' size (run c (Rule.enter c n) (Reading.enter rule >>= f) p s) := by
  rw [run_bind, run_enter_eq]
  revert hcall
  rcases Rule.enter c n rule p s with e | ⟨id, s₁⟩
  · rintro (_ | ⟨he⟩)
    exact .error he
  · rintro (⟨hrest, hsize, -⟩)
    exact (hf id p s₁ hrest).imp (fun _ h => h) hsize

theorem Context.Idles.framed {m : Reading α} {post : α → Prop} (h : c.Idles n m post) :
    c.Idles n (framed m) post := by
  intro p s hrest
  have hx := h (s.current c).span.start s hrest
  rw [Reading.framed, run_frame]
  revert hx
  rcases run c (Rule.enter c n) m (s.current c).span.start s with e | ⟨a, s₁⟩ <;> exact id

/-- At the end of input a repetition ends with its first round. -/
theorem Context.Idles.repeating {σ : Type} {round : σ → Reading (Round σ β)} {x : σ}
    (h : c.Idles n (round x) Round.Stops) : c.Idles n (repeating x round) fun _ => True := by
  intro p s hrest
  have hx := h p s hrest
  rw [Reading.repeating, run_repeat, iterate]
  revert hx
  rcases run c (Rule.enter c n) (round x) p s with e | ⟨y | b, s₁⟩
  · rintro (_ | ⟨he⟩)
    exact .error he
  · rintro (⟨-, -, hstops⟩)
    exact hstops.elim
  · rintro (⟨hrest', hsize, -⟩)
    exact .ok hrest' hsize trivial

/-- What becomes of a name that is not called. -/
def nameEnd (name : String) : Reading NodeId :=
  match Grammar.classOf? name with
  | some class_ => do
    intern class_
    leaf (.classLiteral class_)
  | none =>
    if name.toList.contains '.' then reject [.token (.mark .leftParen)]
    else leaf (.reference name)

/-- What follows a name in an expression. -/
def nameTail (name : String) : Reading NodeId := do
  if (← peek) = .mark .leftParen then
    let node ← openNode (.functionInvocation name)
    let _ ← Reading.enter (.arguments node)
    closeNode node
  else nameEnd name

theorem named_eq : Grammar.named = qualifiedName .plain >>= nameTail := rfl

theorem rest_of_openNode {kind : NodeKind} {id : NodeId}
    (h : run c enter (openNode kind) p s = .ok (id, s')) : s'.rest = s.rest := by
  rcases Nat.lt_or_ge s.tree.size c.maxNodes with hroom | hfull
  · rw [run_openNode_ok kind hroom] at h
    cases h
    rfl
  · rw [run_openNode_full kind hfull] at h
    cases h

/-- A leaf that is made at the end of input. -/
theorem settles_leaf (kind : NodeKind) (hrest : s.rest = []) (hsize : s.tree.size < c.maxNodes) :
    c.Settles (fun _ => True) (s.tree.size + 1) (run c enter (leaf kind) p s) := by
  rw [leaf, run_bind, run_openNode_ok kind hsize]
  refine .ok hrest ?_ trivial
  exact Nat.le_of_eq ((Tree.size_modify _ _ _).trans (Tree.size_push _ _ _))

theorem size_lt_of_nameEnd {name : String} {id : NodeId}
    (h : run c (Rule.enter c n) (nameEnd name) p s = .ok (id, s')) : s.tree.size < s'.tree.size := by
  rw [nameEnd] at h
  split at h
  · exact size_lt_of_bind size_lt_of_openNode h
  · split at h
    · cases h
    · exact size_lt_of_openNode h

theorem size_lt_of_nameTail {name : String} {id : NodeId}
    (h : run c (Rule.enter c n) (nameTail name) p s = .ok (id, s')) : s.tree.size < s'.tree.size := by
  refine size_lt_of_bind (fun {kind s s' id} h => ?_) h
  split at h
  · exact size_lt_of_openNode h
  · exact size_lt_of_nameEnd h

section Lone

variable (hend : c.endToken.kind = .endOfInput)
include hend

theorem settles_nameEnd (name : String) (hrest : s.rest = []) (hsize : s.tree.size < c.maxNodes) :
    c.Settles (fun _ => True) (s.tree.size + 1) (run c enter (nameEnd name) p s) := by
  rw [nameEnd]
  split
  · next class_ _ =>
    rw [run_bind]
    exact settles_leaf (s := ⟨s.rest, s.lastEnd, s.tree.intern class_⟩) _ hrest hsize
  · split
    · exact settles_reject hend hrest _
    · exact settles_leaf _ hrest hsize

theorem settles_nameTail (name : String) (hrest : s.rest = []) (hsize : s.tree.size < c.maxNodes) :
    c.Settles (fun _ => True) (s.tree.size + 1) (run c enter (nameTail name) p s) := by
  rw [nameTail, run_peek_exhausted hend hrest, if_neg (by nofun)]
  exact settles_nameEnd hend name hrest hsize

/-- Nothing follows a name that is the last token. -/
theorem run_qualifiedName_lone {token : Token} {text : String} (role : NameRole)
    (hrest : s.rest = [token]) (htoken : token.lexeme s.tree.symbols = ⟨.identifier, some text⟩) :
    run c enter (qualifiedName role) p s = .ok (text, s.advance) := by
  have hcurrent : s.current c = token := by simp [State.current, hrest]
  have hadvanced : s.advance.rest = [] := by
    obtain ⟨rest, lastEnd, tree⟩ := s
    subst hrest
    rfl
  have hname : run c enter (identifier role) p s = .ok (text, s.advance) := by
    rw [identifier, run_look_bind, hcurrent, htoken]
    rfl
  rw [qualifiedName, run_bind, hname]
  show run c enter (peek >>= _) p s.advance = _
  rw [run_peek_exhausted hend hadvanced, if_neg (by simp)]
  rfl

theorem settles_named {token : Token} {text : String} (hrest : s.rest = [token])
    (htoken : token.lexeme s.tree.symbols = ⟨.identifier, some text⟩)
    (hsize : s.tree.size < c.maxNodes) :
    c.Settles (fun _ => True) (s.tree.size + 1) (run c enter Grammar.named p s) := by
  have hadvanced : s.advance.rest = [] ∧ s.advance.tree = s.tree := by
    obtain ⟨rest, lastEnd, tree⟩ := s
    subst hrest
    exact ⟨rfl, rfl⟩
  rw [named_eq, run_bind, run_qualifiedName_lone hend .plain hrest htoken, ← hadvanced.2]
  exact settles_nameTail hend text hadvanced.1 (hadvanced.2 ▸ hsize)

/-! From a name up to an expression: each rule calls the next one, and finds that no operator,
argument or method follows. -/

theorem settles_primary {token : Token} {text : String} (hrest : s.rest = [token])
    (htoken : token.lexeme s.tree.symbols = ⟨.identifier, some text⟩)
    (hsize : s.tree.size < c.maxNodes) :
    c.Settles (fun _ => True) (s.tree.size + 1) (Rule.enter c (n + 2) .primary p s) := by
  have hcurrent : (s.current c).lexeme s.tree.symbols = ⟨.identifier, some text⟩ := by
    rw [← htoken]
    simp [State.current, hrest]
  have hbehind : ((s.rest.drop 1).head?.getD c.endToken).kind = .endOfInput := by
    rw [hrest]
    exact hend
  have hnamed (q : Position) : c.Settles (fun _ => True) (s.tree.size + 1)
      (run c (Rule.enter c (n + 1)) (Reading.enter .named) q s) := by
    rw [run_enter_eq]
    exact settles_named hend hrest htoken hsize
  show c.Settles _ _ (run c _ (Grammar.primaryOf ((s.current c).lexeme s.tree.symbols)) _ s)
  rw [hcurrent]
  simp only [Grammar.primaryOf]
  split
  · rw [run_bind]
    show c.Settles _ _ (run c _ (if ((s.rest.drop 1).head?.getD c.endToken).kind = _ then _ else _) _ s)
    rw [hbehind, if_neg (by nofun)]
    exact hnamed _
  · exact hnamed _

theorem settles_chain {token : Token} {text : String} (hrest : s.rest = [token])
    (htoken : token.lexeme s.tree.symbols = ⟨.identifier, some text⟩)
    (hsize : s.tree.size < c.maxNodes) :
    c.Settles (fun _ => True) (s.tree.size + 1) (Rule.enter c (n + 3) .chain p s) := by
  refine settles_enter_bind (settles_primary hend hrest htoken hsize) fun first => ?_
  exact .repeating (.bind (.peek hend (.pure trivial)))

theorem settles_unary {token : Token} {text : String} (hrest : s.rest = [token])
    (htoken : token.lexeme s.tree.symbols = ⟨.identifier, some text⟩)
    (hsize : s.tree.size < c.maxNodes) :
    c.Settles (fun _ => True) (s.tree.size + 1) (Rule.enter c (n + 4) .unary p s) := by
  have hcurrent : (s.current c).kind = .identifier := by
    have hkind := congrArg Lexeme.kind htoken
    simpa [State.current, hrest, Token.lexeme] using hkind
  show c.Settles _ _ (run c _ Grammar.unary _ s)
  rw [Grammar.unary, run_peek_bind, hcurrent]
  show c.Settles _ _ (run c _ (Reading.enter .chain) _ s)
  rw [run_enter_eq]
  exact settles_chain hend hrest htoken hsize

/-- A name that is the last token is read as an expression, unless it would have to be called. -/
theorem settles_expression {token : Token} {text : String} {least : Nat} (hrest : s.rest = [token])
    (htoken : token.lexeme s.tree.symbols = ⟨.identifier, some text⟩)
    (hsize : s.tree.size < c.maxNodes) :
    c.Settles (fun _ => True) (s.tree.size + 1) (Rule.enter c (n + 5) (.expression least) p s) := by
  refine settles_enter_bind (settles_unary hend hrest htoken hsize) fun first => ?_
  exact .repeating (.bind (.peek hend (.pure trivial)))

end Lone

end Reading

end GoloSyntax
