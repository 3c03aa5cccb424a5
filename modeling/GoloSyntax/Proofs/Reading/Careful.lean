import GoloSyntax.Proofs.Reading.Run

/-! # What a program may report

A program that gives up says something about the token it stands at, and a repetition that
goes on has read something.  Neither holds of every program, so it is asked of a program before
it runs: `Reading.Careful` goes through a program with what is known at each point
(`Outlook`) and asks of every point what a run needs there.

A careful program that is carried out moves on and answers as its outlook says, or fails with a
fault that concerns the token where it stands (`Reports`, `reports_run`); it never stalls.
-/
namespace GoloSyntax

/-- Whether a token is told by its kind alone, and so can be asked for. -/
def TokenKind.isSymbolic : TokenKind → Bool
  | .keyword _ | .mark _ | .newline | .endOfInput => true
  | .identifier | .number _ | .string _ | .character => false

/-- Whether a token stands for a value that its text spells. -/
def TokenKind.spellsValue : TokenKind → Bool
  | .number _ | .string _ | .character => true
  | .keyword _ | .mark _ | .identifier | .newline | .endOfInput => false

/-- Identifiers are asked for by a role, literals as expressions. -/
def Expected.isSymbolic : Expected → Bool
  | .token kind => kind.isSymbolic
  | .name _ | .expression => true

@[simp] theorem TokenKind.isSymbolic_keyword (word : Keyword) :
    (TokenKind.keyword word).isSymbolic := rfl

@[simp] theorem TokenKind.isSymbolic_mark (sign : Mark) : (TokenKind.mark sign).isSymbolic := rfl

@[simp] theorem TokenKind.isSymbolic_newline : TokenKind.newline.isSymbolic := rfl

@[simp] theorem TokenKind.isSymbolic_endOfInput : TokenKind.endOfInput.isSymbolic := rfl

@[simp] theorem Expected.isSymbolic_token (kind : TokenKind) :
    (Expected.token kind).isSymbolic = kind.isSymbolic := rfl

@[simp] theorem Expected.isSymbolic_name (role : NameRole) : (Expected.name role).isSymbolic := rfl

@[simp] theorem Expected.isSymbolic_expression : Expected.expression.isSymbolic := rfl

/-- The token that is the cause of a fault, or the token at which a limit was reached. -/
inductive ParseFault.Concerns (x : Lexeme) : ParseFault → Prop where
  | unexpected {expected : List Expected} (hne : expected ≠ [])
      (hsymbolic : expected.all Expected.isSymbolic) :
      Concerns x (.unexpected expected x.kind x.text)
  | literalWithoutText (hkind : x.kind.spellsValue) : Concerns x (.literalWithoutText x.kind)
  | invalidNumber {kind : NumberKind} {text : String} (hkind : x.kind = .number kind)
      (htext : x.text = some text) (hvalue : Literal.ofNumber? kind text = none) :
      Concerns x (.invalidNumber kind text)
  | tooDeep (max : Nat) : Concerns x (.tooDeep max)
  | tooManyNodes (count max : Nat) : Concerns x (.tooManyNodes count max)

/-! ## What rules ask for -/

namespace Rule

/-- What is asked for in place of a token that a rule cannot begin with.  A compilation unit may
begin with line feeds and asks for nothing in particular. -/
def asks : Rule → List Expected
  | .compilationUnit => []
  | .moduleDeclaration => [.token (.keyword .module_)]
  | .importDeclaration => [.token (.keyword .import_)]
  | .functionDeclaration => [.token (.keyword .function)]
  | .function => [.token (.mark .leftBrace), .token (.mark .arrow)]
  | .augmentation => [.token (.keyword .augment)]
  | .struct => [.token (.keyword .struct)]
  | .block | .arms .. => [.token (.mark .leftBrace)]
  | .statement | .expression _ | .unary | .chain | .primary => [.expression]
  | .letOrVar => [.token (.keyword .let_), .token (.keyword .var)]
  | .assignment => [.name .variable_]
  | .return_ => [.token (.keyword .return_)]
  | .throw => [.token (.keyword .throw)]
  | .if_ => [.token (.keyword .if_)]
  | .while_ => [.token (.keyword .while_)]
  | .for_ => [.token (.keyword .for_)]
  | .forEach => [.token (.keyword .foreach)]
  | .try_ => [.token (.keyword .try_)]
  | .case_ => [.token (.keyword .case_)]
  | .match_ => [.token (.keyword .match_)]
  | .when_ _ => [.token (.keyword .when_)]
  | .otherwise _ => [.token (.keyword .otherwise)]
  | .arguments _ => [.token (.mark .leftParen)]
  | .named => [.name .plain]
  | .collection _ => [.token (.mark .leftBracket)]

/-- Whether a primary expression begins with a token. -/
def primaryStarts : TokenKind → Bool
  | .identifier | .number _ | .string _ | .character | .keyword .null | .keyword .true_
  | .keyword .false_ | .keyword .match_ | .mark .leftParen | .mark .pipe | .mark .arrow
  | .mark .caret | .mark .leftBracket => true
  | _ => false

/-- Whether an expression begins with a token. -/
def expressionStarts (kind : TokenKind) : Bool :=
  (UnaryOperator.ofToken? kind).isSome || primaryStarts kind

/-- Whether a rule reads a token that comes first. -/
def starts : Rule → TokenKind → Bool
  | .compilationUnit, _ => false
  | .functionDeclaration, kind => kind == .keyword .local_ || kind == .keyword .function
  | .function, kind => kind == .mark .pipe || kind == .mark .leftBrace || kind == .mark .arrow
  | .statement, kind => expressionStarts kind || (
      match kind with
      | .keyword .let_ | .keyword .var | .keyword .return_ | .keyword .throw | .keyword .if_
      | .keyword .while_ | .keyword .for_ | .keyword .foreach | .keyword .try_ | .keyword .case_
      | .keyword .break_ | .keyword .continue_ => true
      | _ => false)
  | .expression _, kind | .unary, kind => expressionStarts kind
  | .chain, kind | .primary, kind => primaryStarts kind
  | .letOrVar, kind => kind == .keyword .let_ || kind == .keyword .var
  | .assignment, kind | .named, kind => kind == .identifier
  | rule, kind => rule.asks == [.token kind]

/-- What a rule may ask for in place of the token that it begins with; an identifier should come
with its text. -/
def MayAsk (rule : Rule) (x : Lexeme) (expected : List Expected) : Prop :=
  rule ≠ .compilationUnit → (x.kind = .identifier → x.text.isSome) →
    expected = rule.asks ∧ rule.starts x.kind = false

end Rule

namespace Reading

/-- What is known at a point of a program. -/
structure Outlook where
  /-- Something has been read since the program began. -/
  moved : Bool
  /-- The next token, if it has been looked at. -/
  next : Option Lexeme

namespace Outlook

/-- The next token is known not to be the end of input. -/
def isSolid (o : Outlook) : Bool := o.next.any fun x => x.kind ≠ .endOfInput

/-- Nothing is known of the next token any more. -/
def blind (o : Outlook) : Outlook := ⟨o.moved, none⟩

/-- The next token has been read. -/
def advance (o : Outlook) : Outlook := ⟨o.moved || o.isSolid, none⟩

end Outlook

/-- A round that is not the last one has read something. -/
def Round.Moves {σ β : Type} : Round σ β → Outlook → Prop
  | .again _, o => o.moved
  | .stop _, _ => True

variable {α β σ : Type}

/-- A program that never stalls and gives up only because of the token it stands at.  What it
asks for in place of its first token is described by `first`; `post` is to hold at its end. -/
def Careful (first : List Expected → Prop) :
    {α : Type} → Reading α → (α → Outlook → Prop) → Outlook → Prop
  | _, .done a, post, o => post a o
  | _, .step .look next, post, o =>
    match o.next with
    | some x => Careful first (next x) post o
    | none => ∀ x, Careful first (next x) post ⟨o.moved, some x⟩
  | _, .step .lookBehind next, post, o => ∀ kind, Careful first (next kind) post o
  | _, .step .advance next, post, o => Careful first (next ()) post o.advance
  | _, .step .skipNewlines next, post, o => Careful first (next ()) post o.blind
  | _, .step (.openNode _) next, post, o => ∀ id, Careful first (next id) post o
  | _, .step (.closeNode _) next, post, o => Careful first (next ()) post o
  | _, .step (.setKind ..) next, post, o => Careful first (next ()) post o
  | _, .step (.attach ..) next, post, o => Careful first (next ()) post o
  | _, .step (.intern _) next, post, o => Careful first (next ()) post o.blind
  | _, .step (.reject expected) _, _, o =>
    expected ≠ [] ∧ expected.all Expected.isSymbolic ∧ (o.moved ∨ first expected)
  | _, .step (.refuseLiteral fault) _, _, o =>
    ∃ x, o.next = some x ∧ fault.Concerns x ∧ fault.expected = []
  | _, .call rule next, post, o =>
    (o.moved ∨ ∀ expected, (∀ x ∈ o.next, rule.MayAsk x expected) → first expected) ∧
      ∀ id, Careful first (next id) post ⟨true, none⟩
  | _, .frame body next, post, o => Careful first body (fun x => Careful first (next x) post) o
  | _, .repeat round _ next, post, o =>
    (∀ x, Careful (fun expected => o.moved ∨ first expected) (round x) Round.Moves ⟨false, none⟩) ∧
      ∀ x, Careful first (next x) post o.blind


/-! ## Carrying a careful program out -/

/-- An outlook is right about a state; `length` tokens were left when the program began. -/
structure Outlook.Meets (o : Outlook) (c : Context) (length : Nat) (s : State) : Prop where
  length_le : s.rest.length ≤ length
  moved : o.moved → s.rest.length < length
  next : ∀ x ∈ o.next, (s.current c).lexeme s.tree.symbols = x

/-- An error stands at the first of the tokens that a run from `s` has come to; if these are
as many as when the program began, it asks only for what may be asked for. -/
structure Blames (c : Context) (s : State) (length : Nat) (first : List Expected → Prop)
    (e : ParseError) (left : List Token) : Prop where
  suffix : left <:+ s.rest
  position : e.position = (left.head?.getD c.endToken).span.start
  concerns : ∃ symbols, s.tree.symbols.Within symbols ∧
    e.fault.Concerns ((left.head?.getD c.endToken).lexeme symbols)
  first : left.length < length ∨ e.fault.expected = [] ∨ first e.fault.expected

/-- What comes of a careful program: an answer as it should be, or an error at some token. -/
inductive Reports (c : Context) (s : State) (length : Nat) (first : List Expected → Prop)
    (post : α → Outlook → Prop) : Except ParseError (α × State) → Prop where
  | ok {a : α} {s' : State} (o : Outlook) (hgrows : s.Grows s') (hmeets : o.Meets c length s')
      (hpost : post a o) : Reports c s length first post (.ok (a, s'))
  | error {e : ParseError} {left : List Token} (h : Blames c s length first e left) :
      Reports c s length first post (.error e)

variable {c : Context} {s s' : State} {length : Nat} {first first' : List Expected → Prop}
  {post : α → Outlook → Prop} {post₁ : β → Outlook → Prop} {o : Outlook} {start : Position}

theorem Outlook.Meets.of_grows (h : o.Meets c length s) (hgrows : s.Grows s') :
    o.blind.Meets c length s' :=
  have hle : s'.rest.length ≤ s.rest.length := hgrows.rest.length_le
  ⟨Nat.le_trans hle h.length_le, fun hmoved => Nat.lt_of_le_of_lt hle (h.moved hmoved), nofun⟩

/-- The next token, if it is known not to be the end of input, can be read. -/
theorem Outlook.Meets.advance (h : o.Meets c length s) (hend : c.endToken.kind = .endOfInput) :
    o.advance.Meets c length s.advance := by
  obtain ⟨_ | ⟨token, rest⟩, lastEnd, tree⟩ := s
  · refine ⟨h.length_le, fun hmoved => ?_, nofun⟩
    rcases (Bool.or_eq_true _ _).mp hmoved with hmoved | hsolid
    · exact h.moved hmoved
    · obtain ⟨x, hx, hkind⟩ := (Option.any_eq_true _ _).mp hsolid
      have hlexeme : c.endToken.lexeme tree.symbols = x := h.next x hx
      simp [← hlexeme, Token.lexeme, hend] at hkind
  · have hlength : rest.length < length := h.length_le
    exact ⟨Nat.le_of_lt hlength, fun _ => hlength, nofun⟩

namespace Blames

variable {e : ParseError} {left : List Token}

theorem of_grows (hgrows : s.Grows s') (h : Blames c s' length first e left) :
    Blames c s length first e left := by
  obtain ⟨symbols, hsymbols, hconcerns⟩ := h.concerns
  exact ⟨h.suffix.trans hgrows.rest, h.position, ⟨symbols, hgrows.symbols.trans hsymbols, hconcerns⟩,
    h.first⟩

/-- A part of a program begins where something has been read already, or asks for no more in
place of its first token than the whole does. -/
theorem within (h : Blames c s s.rest.length first' e left) (hs : o.Meets c length s)
    (hfirst : ∀ expected, first' expected → o.moved ∨ first expected) :
    Blames c s length first e left where
  suffix := h.suffix
  position := h.position
  concerns := h.concerns
  first := by
    have hle := h.suffix.length_le
    rcases h.first with hlt | hnone | hasked
    · exact .inl (Nat.lt_of_lt_of_le hlt hs.length_le)
    · exact .inr (.inl hnone)
    · rcases hfirst _ hasked with hmoved | hasked
      · exact .inl (Nat.lt_of_le_of_lt hle (hs.moved hmoved))
      · exact .inr (.inr hasked)

end Blames

namespace Reports

variable {x : Except ParseError (α × State)}

theorem of_grows (h : s.Grows s') (hx : Reports c s' length first post x) :
    Reports c s length first post x := by
  cases hx with
  | ok o hgrows hmeets hpost => exact .ok o (h.trans hgrows) hmeets hpost
  | error he => exact .error (he.of_grows h)

theorem bind {f : α × State → Except ParseError (β × State)} (hx : Reports c s length first post x)
    (hf : ∀ a o {s'}, s.Grows s' → o.Meets c length s' → post a o →
      Reports c s' length first post₁ (f (a, s'))) : Reports c s length first post₁ (x.bind f) := by
  cases hx with
  | ok o hgrows hmeets hpost => exact (hf _ o hgrows hmeets hpost).of_grows hgrows
  | error he => exact .error he

/-- An error at the next token. -/
theorem fail {fault : ParseFault}
    (hconcerns : fault.Concerns ((s.current c).lexeme s.tree.symbols))
    (hfirst : s.rest.length < length ∨ fault.expected = [] ∨ first fault.expected) :
    Reports c s length first post (s.fail c fault) :=
  .error ⟨List.suffix_rfl, rfl, ⟨_, .refl _, hconcerns⟩, hfirst⟩

end Reports

section Run

variable (hend : c.endToken.kind = .endOfInput)
include hend

theorem reports_perform (action : Step) (next : action.Answer → Reading α)
    (h : (Reading.step action next).Careful first post o) (hs : o.Meets c length s) :
    Reports c s length first (fun x o => (next x).Careful first post o)
      (perform c start action s) := by
  cases action with
  | look =>
    simp only [Careful] at h
    split at h
    · next x hx =>
      have hlexeme := hs.next x hx
      subst hlexeme
      exact .ok o (.refl _) hs h
    · refine .ok ⟨o.moved, some _⟩ (.refl _) ⟨hs.length_le, hs.moved, ?_⟩ (h _)
      exact fun x hx => Option.some.inj hx
  | lookBehind => exact .ok o (.refl _) hs (h _)
  | advance => exact .ok _ (grows_advance s) (hs.advance hend) h
  | skipNewlines =>
    have hgrows : s.Grows ⟨s.rest.dropWhile (·.kind = .newline), s.lastEnd, s.tree⟩ :=
      ⟨List.dropWhile_suffix _, .refl _, Nat.le_refl _⟩
    exact .ok _ hgrows (hs.of_grows hgrows) h
  | openNode kind =>
    simp only [perform]
    split
    · exact .fail (.tooManyNodes _ _) (.inr (.inl rfl))
    · exact .ok o ⟨List.suffix_rfl, .refl _, by simp⟩ ⟨hs.length_le, hs.moved, hs.next⟩ (h _)
  | closeNode id | setKind id kind =>
    exact .ok o ⟨List.suffix_rfl, .refl _, by simp [Tree.setSpan, Tree.setKind]⟩
      ⟨hs.length_le, hs.moved, hs.next⟩ h
  | attach parent child =>
    refine .ok o ⟨List.suffix_rfl, by simpa using .refl _, by simp⟩
      ⟨hs.length_le, hs.moved, fun x hx => ?_⟩ h
    rw [← hs.next x hx, symbols_attach]
    rfl
  | intern text =>
    have hgrows : s.Grows ⟨s.rest, s.lastEnd, s.tree.intern text⟩ :=
      ⟨List.suffix_rfl, SymbolTable.within_intern _ _, Nat.le_refl _⟩
    exact .ok _ hgrows (hs.of_grows hgrows) h
  | reject expected =>
    obtain ⟨hne, hsymbolic, hfirst⟩ := h
    exact .fail (.unexpected hne hsymbolic) (hfirst.imp hs.moved .inr)
  | refuseLiteral fault =>
    obtain ⟨x, hx, hconcerns, hexpected⟩ := h
    have hlexeme := hs.next x hx
    subst hlexeme
    exact .fail hconcerns (.inr (.inl hexpected))

omit hend in
/-- A repetition comes to an end if every round but the last one reads something. -/
theorem reports_iterate {round : σ → State → Except ParseError (Round σ β × State)}
    (hround : ∀ x {s}, s.rest.length ≤ c.tokenCount →
      Reports c s s.rest.length (fun expected => o.moved ∨ first expected) Round.Moves (round x s))
    {n : Nat} (x : σ) (hn : s.rest.length < n) (hcount : s.rest.length ≤ c.tokenCount)
    (hs : o.blind.Meets c length s) :
    Reports c s length first (fun _ o' => o' = o.blind) (iterate c round n x s) := by
  induction n generalizing x s with
  | zero => omega
  | succ n ih =>
    have hx := hround x hcount
    simp only [iterate]
    revert hx
    rcases round x s with e | ⟨y | y, s₁⟩ <;>
      rintro (⟨o', hgrows, hmeets, hpost⟩ | ⟨he⟩)
    case error.error => exact .error (he.within hs fun _ h => h)
    case ok.again.ok =>
      have hlt := hmeets.moved hpost
      exact (ih y (by omega) (by omega) (hs.of_grows hgrows)).of_grows hgrows
    case ok.stop.ok => exact .ok _ hgrows (hs.of_grows hgrows) rfl

variable {enter : Rule → Position → State → Except ParseError (NodeId × State)}

theorem reports_run
    (henter : ∀ rule p {s}, s.rest.length ≤ c.tokenCount → Reports c s s.rest.length
      (rule.MayAsk ((s.current c).lexeme s.tree.symbols)) (fun _ o => o.moved) (enter rule p s))
    (m : Reading α) (h : m.Careful first post o) (hs : o.Meets c length s)
    (hcount : s.rest.length ≤ c.tokenCount) :
    Reports c s length first post (run c enter m start s) := by
  induction m generalizing start s length first o with
  | done a => exact .ok o (.refl _) hs h
  | step action next ih =>
    rw [run_step]
    exact (reports_perform hend action next h hs).bind fun x o _ hgrows hs h =>
      ih x h hs (Nat.le_trans hgrows.rest.length_le hcount)
  | call rule next ih =>
    obtain ⟨hfirst, h⟩ := h
    rw [run_call]
    have hx : Reports c s length first (fun _ o => o = ⟨true, none⟩) (enter rule start s) := by
      have hx := henter rule start hcount
      revert hx
      rcases enter rule start s with e | ⟨id, s₁⟩ <;> rintro (⟨o', hgrows, hmeets, hmoved⟩ | ⟨he⟩)
      · refine .error (he.within hs fun expected hasked => ?_)
        refine hfirst.imp_right fun hall => hall _ fun x hx => ?_
        rwa [← hs.next x hx]
      · have hlt := hmeets.moved hmoved
        exact .ok ⟨true, none⟩ hgrows
          ⟨Nat.le_trans hmeets.length_le hs.length_le, fun _ => Nat.lt_of_lt_of_le hlt hs.length_le,
            nofun⟩ rfl
    exact hx.bind fun id o _ hgrows hs ho =>
      ih id (ho ▸ h id) hs (Nat.le_trans hgrows.rest.length_le hcount)
  | frame body next ihbody ih =>
    rw [run_frame]
    exact (ihbody h hs hcount).bind fun x o _ hgrows hs h =>
      ih x h hs (Nat.le_trans hgrows.rest.length_le hcount)
  | «repeat» round state next ihround ih =>
    obtain ⟨hround, h⟩ := h
    rw [run_repeat]
    have hx : Reports c s length first (fun _ o' => o' = o.blind)
        (iterate c (fun x s => run c enter (round x) start s) (c.tokenCount + 1) state s) :=
      reports_iterate (fun x {s} hcount => ihround x (hround x) ⟨Nat.le_refl _, nofun, nofun⟩ hcount)
        state (by omega) hcount (hs.of_grows (.refl s))
    exact hx.bind fun x o _ hgrows hs ho =>
      ih x (ho ▸ h x) hs (Nat.le_trans hgrows.rest.length_le hcount)

end Run

/-! ## Putting careful programs together -/

/-- What is asked of one program after the other. -/
@[simp] theorem careful_bind (m : Reading α) (f : α → Reading β) :
    (m >>= f).Careful first post₁ o ↔ m.Careful first (fun a => (f a).Careful first post₁) o := by
  show (m.bind f).Careful first post₁ o ↔ _
  refine iff_of_eq ?_
  induction m generalizing o with
  | done a => rfl
  | step action next ih =>
    cases action with
    | look =>
      simp only [Reading.bind, Careful]
      cases o.next with
      | none => exact forall_congr fun x => ih x f
      | some x => exact ih x f
    | lookBehind => exact forall_congr fun kind => ih kind f
    | openNode kind => exact forall_congr fun id => ih id f
    | advance | skipNewlines | closeNode | setKind | attach | intern => exact ih () f
    | reject | refuseLiteral => rfl
  | call rule next ih => exact congrArg (_ ∧ ·) (forall_congr fun id => ih id f)
  | frame body next _ ih =>
    exact congrArg (Careful first body · o) (funext fun x => funext fun o => ih x f)
  | «repeat» round state next _ ih => exact congrArg (_ ∧ ·) (forall_congr fun x => ih x f)

/-- The end of a program may be described more loosely. -/
theorem Careful.imp {m : Reading α} (h : m.Careful first post o)
    (hpost : ∀ a o, post a o → post' a o) : m.Careful first post' o := by
  induction m generalizing o with
  | done a => exact hpost a o h
  | step action next ih =>
    cases action with
    | look =>
      simp only [Careful] at h ⊢
      cases ho : o.next with
      | none =>
        rw [ho] at h
        exact fun x => ih x (h x) hpost
      | some x =>
        rw [ho] at h
        exact ih x h hpost
    | lookBehind => exact fun kind => ih kind (h kind) hpost
    | openNode kind => exact fun id => ih id (h id) hpost
    | advance | skipNewlines | closeNode | setKind | attach | intern => exact ih () h hpost
    | reject | refuseLiteral => exact h
  | call rule next ih => exact ⟨h.1, fun id => ih id (h.2 id) hpost⟩
  | frame body next ihbody ih => exact ihbody h fun x o h => ih x h hpost
  | «repeat» round state next _ ih => exact ⟨h.1, fun x => ih x (h.2 x) hpost⟩

@[simp] theorem moves_again (state : σ) :
    Round.Moves (Round.again state : Round σ β) o ↔ o.moved := .rfl

@[simp] theorem moves_stop (answer : β) : Round.Moves (Round.stop answer : Round σ β) o := trivial

@[simp] theorem careful_pure (a : α) : (pure a : Reading α).Careful first post o ↔ post a o :=
  .rfl

@[simp] theorem careful_advance {post : Unit → Outlook → Prop} :
    advance.Careful first post o ↔ post () o.advance := .rfl

@[simp] theorem careful_skipNewlines {post : Unit → Outlook → Prop} :
    skipNewlines.Careful first post o ↔ post () o.blind := .rfl

@[simp] theorem careful_openNode {kind : NodeKind} {post : NodeId → Outlook → Prop} :
    (openNode kind).Careful first post o ↔ ∀ id, post id o := .rfl

@[simp] theorem careful_closeNode {id : NodeId} {post : NodeId → Outlook → Prop} :
    (closeNode id).Careful first post o ↔ post id o := .rfl

@[simp] theorem careful_setKind {id : NodeId} {kind : NodeKind} {post : Unit → Outlook → Prop} :
    (setKind id kind).Careful first post o ↔ post () o := .rfl

@[simp] theorem careful_attach {parent child : NodeId} {post : Unit → Outlook → Prop} :
    (attach parent child).Careful first post o ↔ post () o := .rfl

@[simp] theorem careful_intern {text : String} {post : Unit → Outlook → Prop} :
    (intern text).Careful first post o ↔ post () o.blind := .rfl

@[simp] theorem careful_reject {expected : List Expected} :
    (reject expected : Reading α).Careful first post o ↔
      expected ≠ [] ∧ expected.all Expected.isSymbolic ∧ (o.moved ∨ first expected) := .rfl

@[simp] theorem careful_refuseLiteral {fault : ParseFault} :
    (refuseLiteral fault : Reading α).Careful first post o ↔
      ∃ x, o.next = some x ∧ fault.Concerns x ∧ fault.expected = [] := .rfl

@[simp] theorem careful_enter {rule : Rule} {post : NodeId → Outlook → Prop} :
    (enter rule).Careful first post o ↔
      (o.moved ∨ ∀ expected, (∀ x ∈ o.next, rule.MayAsk x expected) → first expected) ∧
        ∀ id, post id ⟨true, none⟩ := .rfl

@[simp] theorem careful_framed {body : Reading α} :
    (framed body).Careful first post o ↔ body.Careful first post o := .rfl

@[simp] theorem careful_peekBehind {post : TokenKind → Outlook → Prop} :
    peekBehind.Careful first post o ↔ ∀ kind, post kind o := .rfl

@[simp] theorem careful_repeating {state : σ} {round : σ → Reading (Round σ α)} :
    (repeating state round).Careful first post o ↔
      (∀ x, (round x).Careful (fun expected => o.moved ∨ first expected) Round.Moves
        ⟨false, none⟩) ∧ ∀ x, post x o.blind := .rfl

section Lookahead

variable {moved : Bool} {x : Lexeme} {next : Option Lexeme}

@[simp] theorem blind_mk : Outlook.blind ⟨moved, next⟩ = ⟨moved, none⟩ := rfl

@[simp] theorem advance_mk :
    Outlook.advance ⟨moved, some x⟩ = ⟨moved || decide (x.kind ≠ .endOfInput), none⟩ := rfl

@[simp] theorem careful_look {post : Lexeme → Outlook → Prop} :
    look.Careful first post ⟨moved, none⟩ ↔ ∀ x, post x ⟨moved, some x⟩ := .rfl

@[simp] theorem careful_look_known {post : Lexeme → Outlook → Prop} :
    look.Careful first post ⟨moved, some x⟩ ↔ post x ⟨moved, some x⟩ := .rfl

@[simp] theorem careful_peek {post : TokenKind → Outlook → Prop} :
    peek.Careful first post ⟨moved, none⟩ ↔ ∀ x : Lexeme, post x.kind ⟨moved, some x⟩ := .rfl

@[simp] theorem careful_peek_known {post : TokenKind → Outlook → Prop} :
    peek.Careful first post ⟨moved, some x⟩ ↔ post x.kind ⟨moved, some x⟩ := .rfl

section Expect

variable {kind : TokenKind} {post : Unit → Outlook → Prop}

theorem careful_expect_of_known (hkind : kind.isSymbolic) (hend : kind ≠ .endOfInput) :
    (expect kind).Careful first post ⟨moved, some x⟩ ↔
      if x.kind = kind then post () ⟨true, none⟩ else moved ∨ first [.token kind] := by
  simp only [expect, careful_bind, careful_peek_known]
  split
  · next h => simp [h, hend]
  · simp [hkind]

theorem careful_expect_of (hkind : kind.isSymbolic) (hend : kind ≠ .endOfInput) :
    (expect kind).Careful first post ⟨moved, none⟩ ↔
      post () ⟨true, none⟩ ∧ (moved ∨ first [.token kind]) := by
  have h : (expect kind).Careful first post ⟨moved, none⟩ ↔
      ∀ x : Lexeme, (expect kind).Careful first post ⟨moved, some x⟩ := .rfl
  simp only [h, careful_expect_of_known hkind hend]
  constructor
  · intro h
    have hother : kind ≠ .identifier := by
      rintro rfl
      cases hkind
    exact ⟨by simpa using h ⟨kind, none⟩, by simpa [hother.symm] using h ⟨.identifier, none⟩⟩
  · rintro ⟨h, h'⟩ x
    split <;> assumption

@[simp] theorem careful_expect_mark {sign : Mark} :
    (expect (.mark sign)).Careful first post ⟨moved, none⟩ ↔
      post () ⟨true, none⟩ ∧ (moved ∨ first [.token (.mark sign)]) :=
  careful_expect_of rfl nofun

@[simp] theorem careful_expect_keyword {word : Keyword} :
    (expect (.keyword word)).Careful first post ⟨moved, none⟩ ↔
      post () ⟨true, none⟩ ∧ (moved ∨ first [.token (.keyword word)]) :=
  careful_expect_of rfl nofun

@[simp] theorem careful_expect_mark_known {sign : Mark} :
    (expect (.mark sign)).Careful first post ⟨moved, some x⟩ ↔
      if x.kind = .mark sign then post () ⟨true, none⟩
      else moved ∨ first [.token (.mark sign)] :=
  careful_expect_of_known rfl nofun

@[simp] theorem careful_expect_keyword_known {word : Keyword} :
    (expect (.keyword word)).Careful first post ⟨moved, some x⟩ ↔
      if x.kind = .keyword word then post () ⟨true, none⟩
      else moved ∨ first [.token (.keyword word)] :=
  careful_expect_of_known rfl nofun

end Expect

@[simp] theorem careful_accept {kind : TokenKind} {post : Bool → Outlook → Prop} :
    (accept kind).Careful first post ⟨moved, none⟩ ↔
      ∀ x, (accept kind).Careful first post ⟨moved, some x⟩ := .rfl

@[simp] theorem careful_accept_known {kind : TokenKind} {post : Bool → Outlook → Prop} :
    (accept kind).Careful first post ⟨moved, some x⟩ ↔
      if x.kind = kind then post true ⟨moved || decide (kind ≠ .endOfInput), none⟩
      else post false ⟨moved, some x⟩ := by
  simp only [accept, careful_bind, careful_peek_known]
  split
  · next h => simp [h]
  · rfl

@[simp] theorem careful_identifier_known {role : NameRole} {post : String → Outlook → Prop} :
    (identifier role).Careful first post ⟨moved, some x⟩ ↔
      if h : x.kind = .identifier ∧ x.text.isSome then post (x.text.get h.2) ⟨true, none⟩
      else moved ∨ first [.name role] := by
  obtain ⟨kind, text⟩ := x
  simp only [identifier, careful_bind, careful_look_known]
  cases text with
  | none => cases kind <;> simp
  | some text => cases kind <;> simp

@[simp] theorem careful_identifier {role : NameRole} {post : String → Outlook → Prop} :
    (identifier role).Careful first post ⟨moved, none⟩ ↔
      (∀ text, post text ⟨true, none⟩) ∧ (moved ∨ first [.name role]) := by
  have h : (identifier role).Careful first post ⟨moved, none⟩ ↔
      ∀ x : Lexeme, (identifier role).Careful first post ⟨moved, some x⟩ := .rfl
  simp only [h, careful_identifier_known]
  constructor
  · intro h
    refine ⟨fun text => ?_, ?_⟩
    · simpa using h ⟨.identifier, some text⟩
    · simpa using h ⟨.newline, none⟩
  · rintro ⟨h, h'⟩ x
    split
    · exact h _
    · exact h'

@[simp] theorem careful_leaf {kind : NodeKind} {o : Outlook} {post : NodeId → Outlook → Prop} :
    (leaf kind).Careful first post o ↔ ∀ id, post id o := .rfl

@[simp] theorem careful_child {parent : NodeId} {rule : Rule} {o : Outlook}
    {post : Unit → Outlook → Prop} :
    (child parent rule).Careful first post o ↔
      (o.moved ∨ ∀ expected, (∀ x ∈ o.next, rule.MayAsk x expected) → first expected) ∧
        post () ⟨true, none⟩ := by
  simp [child]

/-- What ends a line is not the first token of anything. -/
theorem careful_terminator {withinBraces : Bool} {post : Unit → Outlook → Prop}
    (h : ∀ next, post () ⟨true, next⟩) : (terminator withinBraces).Careful first post ⟨true, none⟩ := by
  simp only [terminator, careful_bind, careful_peek]
  intro x
  split
  · simp [h]
  · simp [h]
  · split
    · simp [h]
    · simp
  · split <;> simp

end Lookahead

end Reading

end GoloSyntax
