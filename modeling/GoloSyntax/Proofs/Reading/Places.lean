import GoloSyntax.Proofs.Reading.Parse
import GoloSyntax.Proofs.Token.Positions

/-! # Reading makes up no positions

Whatever holds of every position in a token list holds of every position in the tree that is
built from it and of the position of the error (`Placed`), because a run only copies positions.
With what is known of the tokens of a source, every position that comes out of a source marks a
place of it (`marks_everywhere`).
-/
namespace GoloSyntax

/-- Both ends of every span in a tree have a property. -/
def Tree.Placed (Q : Position → Prop) (t : Tree) : Prop :=
  ∀ n ∈ t.nodes, Q n.span.start ∧ Q n.span.stop

namespace Tree.Placed

variable {Q : Position → Prop} {t : Tree}

theorem modify (h : t.Placed Q) (id : NodeId) {f : Node → Node}
    (hf : ∀ n, Q n.span.start ∧ Q n.span.stop → Q (f n).span.start ∧ Q (f n).span.stop) :
    (t.modify id f).Placed Q := by
  intro n hn
  obtain ⟨i, hi, rfl⟩ := Array.mem_iff_getElem.mp hn
  simp only [Tree.modify, Array.getElem_modify]
  split
  · exact hf _ (h _ (Array.getElem_mem _))
  · exact h _ (Array.getElem_mem _)

theorem setSpan (h : t.Placed Q) (id : NodeId) {span : Span} (hspan : Q span.start ∧ Q span.stop) :
    (t.setSpan id span).Placed Q :=
  h.modify id fun _ _ => hspan

theorem push (h : t.Placed Q) (kind : NodeKind) {span : Span} (hspan : Q span.start ∧ Q span.stop) :
    (t.push kind span).2.Placed Q := by
  intro n hn
  rcases Array.mem_push.mp hn with hn | rfl
  · exact h n hn
  · exact hspan

/-- A change of links. -/
theorem relink (h : t.Placed Q) (id : NodeId) {f : Node → Node} (hf : ∀ n, (f n).span = n.span) :
    (t.modify id f).Placed Q :=
  h.modify id fun n hn => by rwa [hf n]

theorem attach (h : t.Placed Q) (parent child : NodeId) : (t.attach parent child).Placed Q := by
  simp only [Tree.attach]
  refine relink ?_ parent fun _ => rfl
  split
  · exact relink (relink h child fun _ => by rfl) _ fun _ => by rfl
  · exact relink (relink h child fun _ => by rfl) _ fun _ => by rfl

end Tree.Placed

namespace Reading

/-- All positions that a run may copy have a property. -/
structure State.Placed (Q : Position → Prop) (s : State) : Prop where
  rest : ∀ token ∈ s.rest, Q token.span.start ∧ Q token.span.stop
  lastEnd : Q s.lastEnd
  tree : s.tree.Placed Q

/-- All positions in an outcome have a property. -/
inductive Placed {α : Type} (Q : Position → Prop) : Except ParseError (α × State) → Prop where
  | ok {a : α} {s : State} (h : s.Placed Q) : Placed Q (.ok (a, s))
  | error {e : ParseError} (h : Q e.position) : Placed Q (.error e)

variable {Q : Position → Prop} {c : Context} {start : Position} {s : State} {α β σ : Type}

theorem Placed.bind {x : Except ParseError (α × State)}
    {f : α × State → Except ParseError (β × State)} (hx : Placed Q x)
    (hf : ∀ a {s : State}, s.Placed Q → Placed Q (f (a, s))) : Placed Q (x.bind f) := by
  cases hx with
  | ok h => exact hf _ h
  | error h => exact .error h

section Run

variable (hend : Q c.endToken.span.start)
include hend

theorem State.Placed.current (h : s.Placed Q) : Q (s.current c).span.start := by
  obtain ⟨rest, lastEnd, tree⟩ := s
  cases rest with
  | nil => exact hend
  | cons token rest => exact (h.rest token List.mem_cons_self).1

theorem State.Placed.fail (h : s.Placed Q) (fault : ParseFault) :
    Reading.Placed Q (s.fail c fault : Except ParseError (α × State)) :=
  .error (h.current hend)

theorem placed_perform (hstart : Q start) (h : s.Placed Q) (action : Step) :
    Placed Q (perform c start action s) := by
  obtain ⟨rest, lastEnd, tree⟩ := s
  cases action with
  | look | lookBehind => exact .ok h
  | advance =>
    cases rest with
    | nil => exact .ok h
    | cons token rest =>
      obtain ⟨htoken, hrest⟩ := List.forall_mem_cons.mp h.rest
      refine .ok ⟨hrest, ?_, h.tree⟩
      simp only [State.advance]
      split
      · exact h.lastEnd
      · exact htoken.2
  | skipNewlines =>
    exact .ok ⟨fun token htoken => h.rest token ((List.dropWhile_suffix _).mem htoken), h.lastEnd,
      h.tree⟩
  | openNode kind =>
    simp only [perform]
    split
    · exact h.fail hend _
    · exact .ok ⟨h.rest, h.lastEnd, h.tree.push kind ⟨hstart, hstart⟩⟩
  | closeNode id => exact .ok ⟨h.rest, h.lastEnd, h.tree.setSpan id ⟨hstart, h.lastEnd⟩⟩
  | setKind id kind => exact .ok ⟨h.rest, h.lastEnd, h.tree.relink id fun _ => rfl⟩
  | attach parent child => exact .ok ⟨h.rest, h.lastEnd, h.tree.attach parent child⟩
  | intern text => exact .ok ⟨h.rest, h.lastEnd, h.tree⟩
  | reject expected => exact h.fail hend _
  | refuseLiteral fault => exact h.fail hend fault

theorem placed_iterate {round : σ → State → Except ParseError (Round σ β × State)}
    (hround : ∀ x {s : State}, s.Placed Q → Placed Q (round x s)) (n : Nat) (x : σ)
    (h : s.Placed Q) : Placed Q (iterate c round n x s) := by
  induction n generalizing x s with
  | zero => exact h.fail hend _
  | succ n ih =>
    have hx := hround x h
    simp only [iterate]
    revert hx
    rcases round x s with e | ⟨y | y, s₁⟩ <;> rintro (hs | he)
    · exact .error he
    · exact ih y hs
    · exact .ok hs

variable {enter : Rule → Position → State → Except ParseError (NodeId × State)}

theorem placed_run (henter : ∀ rule {p} {s : State}, Q p → s.Placed Q → Placed Q (enter rule p s))
    (m : Reading α) (hstart : Q start) (h : s.Placed Q) : Placed Q (run c enter m start s) := by
  induction m generalizing start s with
  | done answer => exact .ok h
  | step action next ih =>
    rw [run_step]
    exact (placed_perform hend hstart h action).bind fun x _ h => ih x hstart h
  | call rule next ih =>
    rw [run_call]
    exact (henter rule hstart h).bind fun id _ h => ih id hstart h
  | frame body next ihbody ih =>
    rw [run_frame]
    exact (ihbody (h.current hend) h).bind fun x _ h => ih x hstart h
  | «repeat» round state next ihround ih =>
    rw [run_repeat]
    exact (placed_iterate hend (fun x _ hx => ihround x hstart hx) _ state h).bind
      fun x _ h => ih x hstart h

theorem placed_enter (levels : Nat) (rule : Rule) {p : Position} (hp : Q p) (h : s.Placed Q) :
    Placed Q (Rule.enter c levels rule p s) := by
  induction levels generalizing rule p s with
  | zero => exact h.fail hend _
  | succ levels ih =>
    refine placed_run hend (fun rule {_ _} hp h => ih rule hp h) rule.reading ?_ h
    split
    · exact hp
    · exact h.current hend

end Run

end Reading

/-! ## Whole sources -/

/-- Every position in an outcome of parsing marks a place of the source. -/
def MarksEach (source : String) : Except ParseError Tree → Prop
  | .ok t => ∀ n ∈ t.nodes, n.span.Marks source
  | .error e => e.position.Marks source

theorem placed_splitAtEnd {Q : Position → Prop} {stream : TokenStream} (hstart : Q .start)
    (h : ∀ token ∈ stream.tokens, Q token.span.start ∧ Q token.span.stop) :
    (∀ token ∈ (splitAtEnd stream.tokens).1, Q token.span.start ∧ Q token.span.stop) ∧
      Q (splitAtEnd stream.tokens).2.span.start ∧ Q (splitAtEnd stream.tokens).2.span.stop := by
  have hall : ∀ token ∈ stream.tokens.toList, Q token.span.start ∧ Q token.span.stop :=
    fun token htoken => h token (Array.mem_toList_iff.mp htoken)
  refine ⟨fun token htoken => hall token ((List.takeWhile_prefix _).mem htoken), ?_⟩
  simp only [splitAtEnd]
  cases hfind : stream.tokens.toList.find? (·.kind == .endOfInput) with
  | some token => exact hall token (List.mem_of_find?_eq_some hfind)
  | none =>
    cases hback : stream.tokens.back? with
    | none => exact ⟨hstart, hstart⟩
    | some token =>
      have := (h token (Array.mem_of_back? hback)).2
      exact ⟨this, this⟩

theorem marks_of_parse {source : String} {stream : TokenStream} (limits : Limits)
    (h : ∀ token ∈ stream.tokens, token.span.Marks source) :
    MarksEach source (parse stream limits) := by
  obtain ⟨hrest, hend⟩ := placed_splitAtEnd (Position.marks_start source) h
  have hroot : (Tree.ofSymbols stream.symbols).Placed (Position.Marks source) := by
    intro n hn
    obtain rfl := Array.mem_singleton.mp hn
    exact ⟨Position.marks_start source, Position.marks_start source⟩
  have hplaced := Reading.placed_enter (c := stream.context limits) hend.1 limits.maxNestingDepth
    .compilationUnit (Position.marks_start source)
    (s := ⟨(splitAtEnd stream.tokens).1, .start, .ofSymbols stream.symbols⟩)
    ⟨hrest, Position.marks_start source, hroot⟩
  rw [parse_eq]
  revert hplaced
  rcases Rule.enter (stream.context limits) limits.maxNestingDepth .compilationUnit .start _
    with e | ⟨root, s⟩ <;> rintro (hs | he)
  · exact he
  · exact hs.tree.setSpan root ⟨Position.marks_start source, hend.2⟩

/-- Every position that cutting a source up or parsing it answers, in tokens, nodes or an
error, marks a place of the source. -/
theorem marks_everywhere (source : String) (limits : Limits) :
    (match lex source limits with
      | .ok stream => ∀ token ∈ stream.tokens, token.span.Marks source
      | .error e => e.position.Marks source) ∧
    MarksEach source (parseSource source limits) := by
  simp only [parseSource]
  cases h : lex source limits with
  | error e => exact ⟨marks_of_lex_error h, marks_of_lex_error h⟩
  | ok stream => exact ⟨marks_of_lex h, marks_of_parse limits (marks_of_lex h)⟩

end GoloSyntax
