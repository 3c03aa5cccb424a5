import GoloSyntax.Proofs.Reading.Exhausted

/-! # Reading a token list that is cut short

The same program is carried out over a token list and over what is left of the list behind a
cut (`Cut`).  The two runs are `Together` as long as the short one has tokens left; once it
has none (`Ended`), they may part.  `Cut.Curtails` says of a program that if the whole run
succeeds, the short one does so too or gives up because of the end of input, and that it never
has more nodes than the whole run.

After the cut the two runs need not answer the same, so what follows is judged as two programs,
which are one program only where the runs are still together.
-/
namespace GoloSyntax

namespace Reading

/-- A token list and what is left of it behind a cut. -/
structure Cut where
  whole : Context
  short : Context
  /-- The tokens in front of the cut. -/
  front : List Token
  /-- The tokens behind the cut. -/
  behind : List Token
  maxNodes : short.maxNodes = whole.maxNodes
  wholeEnd : whole.endToken.kind = .endOfInput
  endKind : short.endToken.kind = .endOfInput
  /-- A name is not cut behind a point. -/
  noDot : ∀ token ∈ front.getLast?, token.kind ≠ .mark .dot

/-- The marks around arguments and elements. -/
inductive Bracket : Mark → Mark → Prop where
  | round : Bracket .leftParen .rightParen
  | square : Bracket .leftBracket .rightBracket

/-- What lies on the two sides of a cut between brackets that hold nothing but line feeds. -/
def InBrackets (front behind : List TokenKind) : Prop :=
  ∃ left right before after i j, Bracket left right ∧
    front = before ++ .mark left :: List.replicate i .newline ∧
    behind = List.replicate j .newline ++ .mark right :: after

namespace Cut

variable (K : Cut)

/-- The cut lies between empty brackets. -/
def InBrackets : Prop := Reading.InBrackets (K.front.map (·.kind)) (K.behind.map (·.kind))

/-- The short run has come as far as the whole one and has tokens left. -/
structure Together (s s' : State) : Prop where
  ne_nil : s'.rest ≠ []
  rest : s.rest = s'.rest ++ K.behind
  suffix : s'.rest <:+ K.front
  symbols : s'.tree.symbols = s.tree.symbols
  size : s'.tree.size = s.tree.size

/-- The short run has no tokens left. -/
structure Ended (s s' : State) : Prop where
  rest : s'.rest = []
  size : s'.tree.size ≤ s.tree.size

/-- Two runs, together if `P` holds, or the short one at its end if `Q` holds. -/
def Side (P Q : Prop) (s s' : State) : Prop := P ∧ K.Together s s' ∨ Q ∧ Ended s s'

/-- How the short run may fail. -/
inductive Excuses : ParseError → Prop where
  | endOfInput {e : ParseError} (h : K.short.EndFault e) : Excuses e
  | stalled {e : ParseError} (kind : TokenKind) (h : e.fault = .stalled kind) : Excuses e
  | tooDeep {e : ParseError} (max : Nat) (h : e.fault = .tooDeep max)
      (hplace : e.position = K.short.endToken.span.start) (hcut : K.InBrackets) : Excuses e

/-- What comes of the short run where the whole run gives an answer. -/
inductive Cuts {α : Type} (P : Prop) (a : α) (s : State) : Except ParseError (α × State) → Prop
  | ok {a' : α} {s' : State} (h : K.Side (P ∧ a = a') True s s') : Cuts P a s (.ok (a', s'))
  | error {e : ParseError} (h : K.Excuses e) : Cuts P a s (.error e)

/-- A program for the whole list and one for the short list, the same one if `P` holds.
Started together, or at the end of the short list if `Q` holds, they stay side by side. -/
def Curtails (n : Nat) {α : Type} (P Q : Prop) (m m' : Reading α) : Prop :=
  ∀ p p' s s' a t, K.Side P Q s s' → run K.whole (Rule.enter K.whole n) m p s = .ok (a, t) →
    K.Cuts P a t (run K.short (Rule.enter K.short n) m' p' s')

/-- A rule, called where the short run has tokens left. -/
def Keeps (n : Nat) (rule : Rule) : Prop :=
  ∀ p p' s s' id t, K.Together s s' → Rule.enter K.whole n rule p s = .ok (id, t) →
    K.Cuts True id t (Rule.enter K.short n rule p' s')

variable {K} {n : Nat} {α β : Type} {P P' Q Q' : Prop} {s s' t t' : State} {p p' : Position}

/-! ## Steps of two runs -/

theorem Together.current (h : K.Together s s') : s'.current K.short = s.current K.whole := by
  obtain ⟨rest, lastEnd, tree⟩ := s'
  cases rest with
  | nil => exact absurd rfl h.ne_nil
  | cons token rest => simp [State.current, h.rest]

theorem Together.lexeme (h : K.Together s s') :
    (s'.current K.short).lexeme s'.tree.symbols = (s.current K.whole).lexeme s.tree.symbols := by
  rw [h.current, h.symbols]

/-- Behind a point stands another token in front of the cut. -/
theorem Together.behind (h : K.Together s s') (hdot : (s.current K.whole).kind = .mark .dot) :
    (s'.rest.drop 1).head?.getD K.short.endToken = (s.rest.drop 1).head?.getD K.whole.endToken := by
  obtain ⟨rest, lastEnd, tree⟩ := s'
  rw [← h.current] at hdot
  rcases rest with _ | ⟨token, _ | ⟨next, rest⟩⟩
  · exact absurd rfl h.ne_nil
  · obtain ⟨before, hfront⟩ := h.suffix
    refine absurd hdot (K.noDot token ?_)
    simp [← hfront]
  · simp [h.rest]

theorem Side.imp (h : K.Side P Q s s') (hP : P → P') (hQ : Q → Q') : K.Side P' Q' s s' :=
  Or.imp (And.imp_left hP) (And.imp_left hQ) h

/-- Where two runs have come to: the short one may have come to its end. -/
theorem side_of_suffix {rest' : List Token} (hP : P) (hrest : s.rest = rest' ++ K.behind)
    (hrest' : s'.rest = rest') (hsuffix : rest' <:+ K.front)
    (hsymbols : s'.tree.symbols = s.tree.symbols) (hsize : s'.tree.size = s.tree.size) :
    K.Side P True s s' := by
  subst hrest'
  by_cases hnil : s'.rest = []
  · exact .inr ⟨trivial, hnil, Nat.le_of_eq hsize⟩
  · exact .inl ⟨hP, hnil, hrest, hsuffix, hsymbols, hsize⟩

/-- What happens to the trees only. -/
theorem Side.build {tree tree' : Tree} {lastEnd lastEnd' : Position} (h : K.Side P Q s s')
    (hsymbols : P → s'.tree.symbols = s.tree.symbols → tree'.symbols = tree.symbols)
    (hsize : s'.tree.size ≤ s.tree.size → tree'.size ≤ tree.size)
    (hsize' : s'.tree.size = s.tree.size → tree'.size = tree.size) :
    K.Side P True ⟨s.rest, lastEnd, tree⟩ ⟨s'.rest, lastEnd', tree'⟩ := by
  rcases h with ⟨hP, h⟩ | ⟨-, h⟩
  · exact .inl ⟨hP, h.ne_nil, h.rest, h.suffix, hsymbols hP h.symbols, hsize' h.size⟩
  · exact .inr ⟨trivial, h.rest, hsize h.size⟩

theorem Side.advance (h : K.Side P Q s s') : K.Side P True s.advance s'.advance := by
  rcases h with ⟨hP, h⟩ | ⟨-, h⟩
  · obtain ⟨rest', lastEnd', tree'⟩ := s'
    obtain ⟨rest, lastEnd, tree⟩ := s
    obtain ⟨hne, rfl, hsuffix, hsymbols, hsize⟩ := h
    cases rest' with
    | nil => exact absurd rfl hne
    | cons token rest' =>
      exact side_of_suffix hP rfl rfl ((List.suffix_cons _ _).trans hsuffix) hsymbols hsize
  · refine .inr ⟨trivial, ?_, ?_⟩
    · rw [rest_advance_of_exhausted h.rest]
      exact h.rest
    · rw [rest_advance_of_exhausted h.rest]
      exact Nat.le_trans h.size (grows_advance s).size

theorem Together.advance (h : K.Together s s') : K.Side True True s.advance s'.advance :=
  Side.advance (Q := False) (.inl ⟨trivial, h⟩)

theorem Side.skipNewlines (h : K.Side P Q s s') : K.Side P True
    ⟨s.rest.dropWhile (·.kind = .newline), s.lastEnd, s.tree⟩
    ⟨s'.rest.dropWhile (·.kind = .newline), s'.lastEnd, s'.tree⟩ := by
  rcases h with ⟨hP, h⟩ | ⟨-, h⟩
  · by_cases hnil : s'.rest.dropWhile (·.kind = .newline) = []
    · exact .inr ⟨trivial, hnil, Nat.le_of_eq h.size⟩
    · refine side_of_suffix hP ?_ rfl ((List.dropWhile_suffix _).trans h.suffix) h.symbols h.size
      simp only [h.rest]
      rw [List.dropWhile_append, if_neg (by simpa using hnil)]
  · exact .inr ⟨trivial, by simp [h.rest], h.size⟩

/-! ## Programs -/

theorem Cuts.imp {a : α} {x : Except ParseError (α × State)} (h : K.Cuts P a t x) (hP : P → P') :
    K.Cuts P' a t x := by
  cases h with
  | ok h => exact .ok (h.imp (And.imp_left hP) id)
  | error h => exact .error h

/-- At the end of the short list nothing matters of the whole run but that it goes on. -/
theorem Cuts.of_settles {a : α} {x : Except ParseError (α × State)} {post : α → Prop} {size : Nat}
    (h : K.short.Settles post size x) (hsize : size ≤ t.tree.size) : K.Cuts P a t x := by
  cases h with
  | ok hrest hle _ => exact .ok (.inr ⟨trivial, hrest, Nat.le_trans hle hsize⟩)
  | error h => exact .error (.endOfInput h)

namespace Curtails

variable {m m' : Reading α} {f f' : α → Reading β} {a a' : α}

/-- The short run is at its end and comes to nothing more. -/
theorem of_idles (hP : ¬ P) (h : K.short.Idles n m' fun _ => True) : K.Curtails n P Q m m' := by
  intro p p' s s' a t hside hrun
  rcases hside with ⟨h, -⟩ | ⟨-, hside⟩
  · exact absurd h hP
  · exact .of_settles (h p' s' hside.rest)
      (Nat.le_trans hside.size (grows_run grows_enter m hrun).size)

/-- Where the short run has tokens left, both runs carry out the same program. -/
theorem same (hm : P → m = m') (h : K.Curtails n P False m m) : K.Curtails n P False m m' := by
  intro p p' s s' a t hside hrun
  rcases hside with ⟨hP, hside⟩ | ⟨hQ, -⟩
  · exact hm hP ▸ h p p' s s' a t (.inl ⟨hP, hside⟩) hrun
  · exact hQ.elim

theorem mono (h : K.Curtails n P Q m m') (hQ : Q' → Q) : K.Curtails n P Q' m m' :=
  fun p p' s s' a t hside hrun => h p p' s s' a t (hside.imp id hQ) hrun

theorem pure (h : P → a = a') : K.Curtails n P Q (pure a) (pure a') := by
  intro p p' s s' b t hside hrun
  obtain ⟨rfl, rfl⟩ := Prod.mk.inj (Except.ok.inj hrun)
  exact .ok (hside.imp (fun hP => ⟨hP, h hP⟩) fun _ => trivial)

theorem bind (hm : K.Curtails n P Q m m')
    (hf : ∀ a a', K.Curtails n (P ∧ a = a') True (f a) (f' a')) :
    K.Curtails n P Q (m >>= f) (m' >>= f') := by
  intro p p' s s' b t hside hrun
  obtain ⟨a, s₁, hm₁, hf₁⟩ := run_bind_ok.mp hrun
  have hcut := hm p p' s s' a s₁ hside hm₁
  rw [run_bind]
  revert hcut
  rcases run K.short (Rule.enter K.short n) m' p' s' with e | ⟨a', s₁'⟩
  · rintro (_ | ⟨he⟩)
    exact .error he
  · rintro (⟨h⟩ | _)
    exact (hf a a' p p' s₁ s₁' b t h hf₁).imp And.left

/-- A step that goes well in both runs. -/
theorem of_run (g g' : Position → State → State) (hrun : ∀ p s,
      run K.whole (Rule.enter K.whole n) m p s = .ok (a, g p s))
    (hrun' : ∀ p s, run K.short (Rule.enter K.short n) m' p s = .ok (a', g' p s))
    (hside : ∀ {p p' s s'}, K.Side P Q s s' → K.Side P True (g p s) (g' p' s')) (ha : P → a = a') :
    K.Curtails n P Q m m' := by
  intro p p' s s' b t h hb
  rw [hrun] at hb
  obtain ⟨rfl, rfl⟩ := Prod.mk.inj (Except.ok.inj hb)
  rw [hrun']
  exact .ok ((hside h).imp (fun hP => ⟨hP, ha hP⟩) fun _ => trivial)

theorem advance : K.Curtails n P Q advance advance :=
  of_run (fun _ s => s.advance) (fun _ s => s.advance) (fun _ _ => rfl) (fun _ _ => rfl)
    Side.advance fun _ => rfl

theorem skipNewlines : K.Curtails n P Q skipNewlines skipNewlines :=
  of_run (fun _ s => ⟨s.rest.dropWhile (·.kind = .newline), s.lastEnd, s.tree⟩)
    (fun _ s => ⟨s.rest.dropWhile (·.kind = .newline), s.lastEnd, s.tree⟩)
    (fun _ _ => rfl) (fun _ _ => rfl) Side.skipNewlines fun _ => rfl

theorem closeNode {id id' : NodeId} (hid : P → id = id') :
    K.Curtails n P Q (closeNode id) (closeNode id') :=
  of_run (fun p s => ⟨s.rest, s.lastEnd, s.tree.setSpan id ⟨p, s.lastEnd⟩⟩)
    (fun p s => ⟨s.rest, s.lastEnd, s.tree.setSpan id' ⟨p, s.lastEnd⟩⟩)
    (fun _ _ => rfl) (fun _ _ => rfl)
    (fun h => h.build (fun _ h => h) (by simp [Tree.setSpan]) (by simp [Tree.setSpan])) hid

theorem setKind {id id' : NodeId} {kind kind' : NodeKind} :
    K.Curtails n P Q (setKind id kind) (setKind id' kind') :=
  of_run (fun _ s => ⟨s.rest, s.lastEnd, s.tree.setKind id kind⟩)
    (fun _ s => ⟨s.rest, s.lastEnd, s.tree.setKind id' kind'⟩)
    (fun _ _ => rfl) (fun _ _ => rfl)
    (fun h => h.build (fun _ h => h) (by simp [Tree.setKind]) (by simp [Tree.setKind]))
    fun _ => rfl

theorem attach {parent parent' child child' : NodeId} :
    K.Curtails n P Q (attach parent child) (attach parent' child') :=
  of_run (fun _ s => ⟨s.rest, s.lastEnd, s.tree.attach parent child⟩)
    (fun _ s => ⟨s.rest, s.lastEnd, s.tree.attach parent' child'⟩)
    (fun _ _ => rfl) (fun _ _ => rfl) (fun h => h.build (by simp) (by simp) (by simp)) fun _ => rfl

theorem intern {text text' : String} (htext : P → text = text') :
    K.Curtails n P Q (intern text) (intern text') := by
  refine of_run (fun _ s => ⟨s.rest, s.lastEnd, s.tree.intern text⟩)
    (fun _ s => ⟨s.rest, s.lastEnd, s.tree.intern text'⟩)
    (fun _ _ => rfl) (fun _ _ => rfl) (fun {p p' s s'} h => h.build ?_ id id) fun _ => rfl
  intro hP hsymbols
  show (s'.tree.symbols.intern text').2 = (s.tree.symbols.intern text).2
  rw [hsymbols, htext hP]

/-- The short run has room for a node if the whole one has. -/
theorem openNode {kind kind' : NodeKind} :
    K.Curtails n P Q (openNode kind) (openNode kind') := by
  intro p p' s s' b t h hb
  have hsize : s'.tree.size ≤ s.tree.size := by
    rcases h with ⟨-, h⟩ | ⟨-, h⟩
    · exact Nat.le_of_eq h.size
    · exact h.size
  rcases Nat.lt_or_ge s.tree.size K.whole.maxNodes with hroom | hfull
  · rw [run_openNode_ok kind hroom] at hb
    obtain ⟨rfl, rfl⟩ := Prod.mk.inj (Except.ok.inj hb)
    rw [run_openNode_ok kind' (by rw [K.maxNodes]; omega)]
    refine .ok ?_
    rcases h with ⟨hP, h⟩ | ⟨-, h⟩
    · refine .inl ⟨⟨hP, by rw [h.size]⟩, h.ne_nil, h.rest, h.suffix, h.symbols, ?_⟩
      simp [h.size]
    · exact .inr ⟨trivial, h.rest, by simpa using h.size⟩
  · rw [run_openNode_full kind hfull] at hb
    cases hb

theorem reject {expected : List Expected} : K.Curtails n P Q (reject expected) m' := by
  intro p p' s s' b t h hb
  cases hb

theorem refuseLiteral {fault : ParseFault} : K.Curtails n P Q (refuseLiteral fault) m' := by
  intro p p' s s' b t h hb
  cases hb

/-- A program that goes by the next token.  The short run may have to do without one. -/
theorem look {f f' : Lexeme → Reading α} (hf : ∀ x, K.Curtails n P False (f x) (f' x))
    (hend : Q → ∀ text, K.short.Idles n (f' ⟨.endOfInput, text⟩) fun _ => True) :
    K.Curtails n P Q (look >>= f) (look >>= f') := by
  intro p p' s s' b t h hb
  rcases h with ⟨hP, h⟩ | ⟨hQ, h⟩
  · rw [run_bind] at hb ⊢
    have hcut := hf _ p p' s s' b t (.inl ⟨hP, h⟩) hb
    rw [← h.lexeme] at hcut
    exact hcut
  · have hgrows : s.Grows t := grows_run grows_enter _ hb
    have hidle := Context.Idles.bind (.look K.endKind (hend hQ)) p' s' h.rest
    exact .of_settles hidle (Nat.le_trans h.size hgrows.size)

theorem peek {f f' : TokenKind → Reading α} (hf : ∀ kind, K.Curtails n P False (f kind) (f' kind))
    (hend : Q → K.short.Idles n (f' .endOfInput) fun _ => True) :
    K.Curtails n P Q (peek >>= f) (peek >>= f') := by
  show K.Curtails n P Q (Reading.look >>= fun x => f x.kind) (Reading.look >>= fun x => f' x.kind)
  exact look (fun x => hf x.kind) fun hQ _ => hend hQ

theorem framed (hm : K.Curtails n P Q m m') : K.Curtails n P Q (framed m) (framed m') := by
  intro p p' s s' a t h hrun
  have hframe (c : Context) (enter : Rule → Position → State → Except ParseError (NodeId × State))
      (m : Reading α) (p : Position) (s : State) :
      run c enter (Reading.framed m) p s = run c enter m (s.current c).span.start s := by
    rw [Reading.framed, run_frame]
    rcases run c enter m (s.current c).span.start s with e | ⟨x, s₁⟩ <;> rfl
  rw [hframe] at hrun ⊢
  exact hm _ _ s s' a t h hrun

/-- A call.  At the end of the short list the rule must be one that gives up at once, for want of
a token and not of levels. -/
theorem call {rule rule' : Rule} (hcalls : ∀ rule, K.Keeps n rule) (hrule : P → rule = rule')
    (hprompt : Q → rule'.isPrompt ∧
      (rule ≠ .statement ∧ rule'.reach = rule.reach ∨ rule'.reach ≤ n)) :
    K.Curtails n P Q (enter rule) (enter rule') := by
  intro p p' s s' id t h hrun
  rw [run_enter_eq] at hrun ⊢
  rcases h with ⟨hP, h⟩ | ⟨hQ, h⟩
  · obtain rfl := hrule hP
    exact (hcalls rule p p' s s' id t h hrun).imp fun _ => hP
  · obtain ⟨hprompt, hreach⟩ := hprompt hQ
    have hlevels : rule'.reach ≤ n := by
      rcases hreach with ⟨hstatement, hreach⟩ | hreach
      · exact hreach ▸ reach_le_of_enter hstatement hrun
      · exact hreach
    obtain ⟨e, he, hfault⟩ := enter_exhausted (p := p') K.endKind hprompt hlevels h.rest
    rw [he]
    exact .error (.endOfInput hfault)

section Repeating

variable {σ : Type} {round round' : σ → Reading (Round σ α)} {x x' : σ} {b : α}
  (hend : ∀ x, K.short.Idles n (round' x) Round.Stops)
include hend

/-- At its end the short run takes one more round at most. -/
theorem cuts_of_ended {N : Nat} (hrest : s'.rest = []) (hsize : s'.tree.size ≤ t.tree.size) :
    K.Cuts P b t
      (iterate K.short (fun x s => run K.short (Rule.enter K.short n) (round' x) p' s) N x' s') := by
  cases N with
  | zero => exact .error (.stalled _ rfl)
  | succ N =>
    have hx := hend x' p' s' hrest
    rw [iterate]
    revert hx
    rcases run K.short (Rule.enter K.short n) (round' x') p' s' with e | ⟨y | b', s₁⟩
    · rintro (_ | ⟨he⟩)
      exact .error (.endOfInput he)
    · rintro (⟨-, -, hstops⟩)
      exact hstops.elim
    · rintro (⟨hrest₁, hsize₁, -⟩)
      exact .ok (.inr ⟨trivial, hrest₁, Nat.le_trans hsize₁ hsize⟩)

theorem cuts_iterate (hround : ∀ x, K.Curtails n P False (round x) (round' x))
    {N N' : Nat} (hx : P → x = x') (h : K.Side P True s s')
    (hrun : iterate K.whole (fun x s => run K.whole (Rule.enter K.whole n) (round x) p s) N x s =
      .ok (b, t)) :
    K.Cuts P b t
      (iterate K.short (fun x s => run K.short (Rule.enter K.short n) (round' x) p' s) N' x' s') := by
  have hgrows {N : Nat} {x : σ} {s : State}
      (hrun : iterate K.whole (fun x s => run K.whole (Rule.enter K.whole n) (round x) p s) N x s =
        .ok (b, t)) : s.Grows t :=
    grows_iterate (fun x _ _ _ hr => grows_run grows_enter (round x) hr) hrun
  -- Each run counts its own rounds.  The induction is on those of the short run, which may run
  -- out of them: that is excused.
  induction N' generalizing N x x' s s' with
  | zero => exact .error (.stalled _ rfl)
  | succ N' ih =>
    rcases h with ⟨hP, h⟩ | ⟨-, h⟩
    · cases N with
      | zero => cases hrun
      | succ N =>
        rw [iterate] at hrun ⊢
        have hcut {y : Round σ α} {s₁ : State}
            (hy : run K.whole (Rule.enter K.whole n) (round x) p s = .ok (y, s₁)) :
            K.Cuts P y s₁ (run K.short (Rule.enter K.short n) (round' x') p' s') :=
          hx hP ▸ hround x p p' s s' y s₁ (.inl ⟨hP, h⟩) hy
        revert hcut hrun
        rcases run K.whole (Rule.enter K.whole n) (round x) p s with e | ⟨y, s₁⟩
        · exact fun hrun => by cases hrun
        · intro hrun hcut
          replace hcut := hcut rfl
          -- Once the short run has ended in a round, the nodes of the whole run are all that is
          -- needed of the rounds that follow there.
          have hle : s₁.tree.size ≤ t.tree.size := by
            cases y with
            | again y => exact (hgrows hrun).size
            | stop b' =>
              cases hrun
              exact Nat.le_refl _
          revert hcut
          rcases run K.short (Rule.enter K.short n) (round' x') p' s' with e | ⟨y' | b', s₁'⟩
          · rintro (_ | ⟨he⟩)
            exact .error he
          · rintro (⟨⟨⟨-, hy⟩, h₁⟩ | ⟨-, h₁⟩⟩ | _)
            · subst hy
              exact ih (fun _ => rfl) (.inl ⟨hP, h₁⟩) hrun
            · exact cuts_of_ended hend h₁.rest (Nat.le_trans h₁.size hle)
          · rintro (⟨⟨⟨-, hy⟩, h₁⟩ | ⟨-, h₁⟩⟩ | _)
            · subst hy
              cases hrun
              exact .ok (.inl ⟨⟨hP, rfl⟩, h₁⟩)
            · exact .ok (.inr ⟨trivial, h₁.rest, Nat.le_trans h₁.size hle⟩)
    · exact cuts_of_ended hend h.rest (Nat.le_trans h.size (hgrows hrun).size)

/-- A repetition: rounds need to be judged only where the short run has tokens left. -/
theorem repeating (hx : P → x = x')
    (hround : ∀ x, K.Curtails n P False (round x) (round' x)) :
    K.Curtails n P True (repeating x round) (repeating x' round') := by
  intro p p' s s' b t h hrun
  rw [run_repeating] at hrun ⊢
  exact cuts_iterate hend hround hx h hrun

end Repeating

/-! ## Phrases -/

theorem expect {kind : TokenKind} (hkind : kind ≠ .endOfInput) :
    K.Curtails n P Q (expect kind) (expect kind) := by
  refine peek (fun k => ?_) fun _ => ?_
  · split
    · exact advance
    · exact reject
  · rw [if_neg hkind.symm]
    exact .reject K.endKind _

theorem mark {sign : Mark} :
    K.Curtails n P Q (Reading.expect (.mark sign)) (Reading.expect (.mark sign)) :=
  expect (by nofun)

theorem keyword {word : Keyword} :
    K.Curtails n P Q (Reading.expect (.keyword word)) (Reading.expect (.keyword word)) :=
  expect (by nofun)

theorem accept {kind : TokenKind} (hkind : kind ≠ .endOfInput) :
    K.Curtails n P Q (accept kind) (accept kind) := by
  refine peek (fun k => ?_) fun _ => ?_
  · split
    · exact advance.bind fun _ _ => pure fun _ => rfl
    · exact pure fun _ => rfl
  · rw [if_neg hkind.symm]
    exact .pure trivial

theorem identifier {role : NameRole} : K.Curtails n P Q (identifier role) (identifier role) := by
  refine look (fun x => ?_) fun _ text => .reject K.endKind _
  split
  · exact advance.bind fun _ _ => pure fun _ => rfl
  · exact reject

/-- A name that goes on behind a point: the cut is not behind that point. -/
theorem dotted {f f' : TokenKind → Reading α} {g g' : Reading α}
    (hf : ∀ kind, K.Curtails n P False (f kind) (f' kind)) (hg : K.Curtails n P False g g') :
    K.Curtails n P False
      (Reading.peek >>= fun kind => if kind = .mark .dot then peekBehind >>= f else g)
      (Reading.peek >>= fun kind => if kind = .mark .dot then peekBehind >>= f' else g') := by
  intro p p' s s' a t h hrun
  rcases h with ⟨hP, h⟩ | ⟨hQ, -⟩
  · rw [run_bind] at hrun ⊢
    change run K.whole _ (if (s.current K.whole).kind = .mark .dot then _ else _) p s = _ at hrun
    show K.Cuts P a t (run K.short _ (if (s'.current K.short).kind = .mark .dot then _ else _) p' s')
    rw [h.current]
    split at hrun
    · next hdot =>
      rw [if_pos hdot]
      rw [run_bind] at hrun ⊢
      have hcut := hf _ p p' s s' a t (.inl ⟨hP, h⟩) hrun
      rw [← h.behind hdot] at hcut
      exact hcut
    · next hdot =>
      rw [if_neg hdot]
      exact hg p p' s s' a t (.inl ⟨hP, h⟩) hrun
  · exact hQ.elim

theorem nameRound {name name' : String} (hname : P → name = name') :
    K.Curtails n P False (nameRound name) (nameRound name') := by
  refine dotted (fun kind => ?_) (pure fun hP => by rw [hname hP])
  split
  · refine advance.bind fun _ _ => identifier.bind fun segment segment' => pure ?_
    rintro ⟨⟨hP, -⟩, rfl⟩
    rw [hname hP]
  · exact pure fun hP => by rw [hname hP]

theorem qualifiedName {role : NameRole} :
    K.Curtails n P Q (qualifiedName role) (qualifiedName role) := by
  have hsegments (name : String) : K.short.Idles n (Reading.nameRound name) Round.Stops := by
    refine .bind (.peek K.endKind ?_)
    rw [if_neg (by nofun)]
    exact .pure trivial
  refine identifier.bind fun first first' => peek (fun kind => ?_) fun _ => ?_
  · split
    · refine .mono (Q := True) ?_ fun _ => trivial
      refine bind (repeating hsegments And.right fun _ => nameRound fun _ => rfl) fun _ _ => ?_
      exact (intern And.right).bind fun _ _ => pure fun hP => hP.1.2
    · exact pure And.right
  · rw [if_neg (by nofun)]
    exact .pure trivial

theorem leaf {kind kind' : NodeKind} : K.Curtails n P Q (leaf kind) (leaf kind') :=
  openNode.bind fun _ _ => closeNode And.right

theorem child {parent parent' : NodeId} {rule rule' : Rule} (hcalls : ∀ rule, K.Keeps n rule)
    (hrule : P → rule = rule') (hprompt : Q → rule'.isPrompt ∧
      (rule ≠ .statement ∧ rule'.reach = rule.reach ∨ rule'.reach ≤ n)) :
    K.Curtails n P Q (child parent rule) (child parent' rule') :=
  (call hcalls hrule hprompt).bind fun _ _ => attach

/-- A child that the short run finds missing at its end with no more levels than the whole run
needs to read it. -/
theorem part {parent parent' : NodeId} {rule : Rule} (hcalls : ∀ rule, K.Keeps n rule)
    (hrule : rule.isPrompt && rule != .statement) :
    K.Curtails n P Q (Reading.child parent rule) (Reading.child parent' rule) := by
  obtain ⟨hprompt, hstatement⟩ := (Bool.and_eq_true _ _).mp hrule
  exact child hcalls (fun _ => rfl) fun _ => ⟨hprompt, .inl ⟨by simpa using hstatement, rfl⟩⟩

theorem terminator {withinBraces : Bool} :
    K.Curtails n P Q (terminator withinBraces) (terminator withinBraces) := by
  refine peek (fun kind => ?_) fun _ => .pure trivial
  split
  · exact skipNewlines
  · exact pure fun _ => rfl
  · split
    · exact pure fun _ => rfl
    · exact reject
  · split <;> exact reject

end Curtails

end Cut

end Reading

end GoloSyntax
