import GoloSyntax.Proofs.Reading.Careful
import GoloSyntax.Proofs.Reading.Twins

/-! # Every rule is careful

Every rule of the grammar is a careful program: it asks for what it should in place of its
first token, it reads something if it succeeds, and so do the rounds of its repetitions
(`careful_reading`).  So reading never stalls, and what stops it is the token at which it stops
(`blames_of_parse`).
-/
namespace GoloSyntax

namespace Reading

variable {x : Lexeme} {first : List Expected → Prop} {moved : Bool} {next : Option Lexeme}
  {rule rule' : Rule}

/-! ## Beginnings -/

/-- What a rule may rely on when it calls another one. -/
def IsCareful (rule : Rule) : Prop :=
  ∀ x, rule.reading.Careful (rule.MayAsk x) (fun _ o => o.moved) ⟨false, some x⟩

/-- A rule that begins with a certain token. -/
theorem isCareful_of_expect {kind : TokenKind} {m : Reading NodeId}
    (hreading : rule.reading = expect kind >>= fun _ => m) (hasks : rule.asks = [.token kind])
    (hstarts : ∀ other, rule.starts other = (rule.asks == [.token other]))
    (hkind : kind.isSymbolic) (hend : kind ≠ .endOfInput)
    (h : ∀ first, m.Careful first (fun _ o => o.moved) ⟨true, none⟩) : IsCareful rule := by
  intro x
  rw [hreading, careful_bind, careful_expect_of_known hkind hend]
  split
  · exact h _
  · next hne =>
    refine .inr fun _ _ => ⟨hasks.symm, ?_⟩
    rw [hstarts, hasks]
    simpa using Ne.symm hne

/-- A rule that begins with another one. -/
theorem mayAsk_of_rule (hrule : rule' ≠ .compilationUnit) (h : rule'.starts x.kind = false →
      rule'.asks = rule.asks ∧ rule.starts x.kind = false) :
    ∀ expected, (∀ y ∈ some x, rule'.MayAsk y expected) → rule.MayAsk x expected := by
  intro expected hasked _ hnamed
  obtain ⟨rfl, hstarts⟩ := hasked x rfl hrule hnamed
  exact h hstarts

theorem careful_enter_first (hrule : rule' ≠ .compilationUnit) (h : rule'.starts x.kind = false →
      rule'.asks = rule.asks ∧ rule.starts x.kind = false) :
    (enter rule').Careful (rule.MayAsk x) (fun _ o => o.moved) ⟨false, some x⟩ :=
  careful_enter.mpr ⟨.inr (mayAsk_of_rule hrule h), fun _ => rfl⟩

/-! ## Names and lines -/

theorem careful_nameRound (name : String) :
    (nameRound name).Careful first Round.Moves ⟨false, none⟩ := by
  simp only [nameRound, careful_bind, careful_peek]
  intro y
  split
  · next hdot =>
    simp only [careful_bind, careful_peekBehind]
    intro kind
    split
    · simp [hdot]
    · simp
  · simp

/-- Further segments of a name are read as long as there are any. -/
theorem careful_qualifiedName {role : NameRole} {post : String → Outlook → Prop}
    (h : (identifier role).Careful first
      (fun _ o => o = ⟨true, none⟩ ∧ ∀ text next, post text ⟨true, next⟩) ⟨moved, next⟩) :
    (qualifiedName role).Careful first post ⟨moved, next⟩ := by
  rw [qualifiedName, careful_bind]
  refine h.imp ?_
  rintro text _ ⟨rfl, hpost⟩
  simp only [careful_bind, careful_peek]
  intro y
  split
  · exact ⟨fun name => careful_nameRound name, fun name => hpost name none⟩
  · exact hpost _ _

theorem careful_peek_any {post : TokenKind → Outlook → Prop}
    (h : ∀ y : Lexeme, post y.kind ⟨moved, some y⟩) : peek.Careful first post ⟨moved, next⟩ := by
  cases next with
  | none => exact h
  | some y => exact h y

theorem careful_expect_moved {kind : TokenKind} {post : Unit → Outlook → Prop}
    (hkind : kind.isSymbolic) (hend : kind ≠ .endOfInput) (h : post () ⟨true, none⟩) :
    (expect kind).Careful first post ⟨true, next⟩ := by
  cases next with
  | none => exact (careful_expect_of hkind hend).mpr ⟨h, .inl rfl⟩
  | some x =>
    rw [careful_expect_of_known hkind hend]
    split
    · exact h
    · exact .inl rfl

/-! ## Declarations -/

theorem isCareful_moduleDeclaration : IsCareful .moduleDeclaration :=
  isCareful_of_expect rfl rfl (fun _ => rfl) rfl nofun fun first => by
    rw [careful_bind]
    exact careful_qualifiedName (by simp)

theorem isCareful_importDeclaration : IsCareful .importDeclaration :=
  isCareful_of_expect rfl rfl (fun _ => rfl) rfl nofun fun first => by
    rw [careful_bind]
    exact careful_qualifiedName (by simp)

theorem isCareful_functionDeclaration : IsCareful .functionDeclaration := by
  intro x
  simp only [Rule.reading, Grammar.functionDeclaration, careful_bind, careful_accept_known]
  split
  · simp
    intro _ y
    split <;> simp
  · simp
    split
    · intro _ y
      split <;> simp
    · simp_all [Rule.MayAsk, Rule.asks, Rule.starts]

theorem careful_parameters {function : NodeId} {post : Bool → Outlook → Prop}
    (h : ∀ varargs next, post varargs ⟨true, next⟩) :
    (Grammar.parameters function).Careful first post ⟨true, none⟩ := by
  simp only [Grammar.parameters, repeatUntil, careful_bind, careful_peek]
  intro y
  split
  · exact h _ _
  · refine ⟨fun _ => ?_, fun varargs => h varargs none⟩
    simp
    intro z
    split
    · next hz => simp [hz]
    · simp
      intro w
      split <;> simp
    · simp
    · simp

theorem isCareful_function : IsCareful .function := by
  intro x
  simp only [Rule.reading, Grammar.function, Grammar.parameterList, careful_bind, careful_openNode,
    careful_accept_known]
  intro function
  split
  · simp
    refine careful_parameters ?_
    rintro varargs (_ | y)
    · simp
      intro z
      split <;> simp
    · simp
      intro _ z
      split <;> simp
  · simp
    split <;> simp_all [Rule.MayAsk, Rule.asks, Rule.starts]

theorem isCareful_augmentation : IsCareful .augmentation :=
  isCareful_of_expect rfl rfl (fun _ => rfl) rfl (by simp) fun first => by
    rw [careful_bind]
    refine careful_qualifiedName ?_
    simp only [careful_identifier, careful_bind, careful_openNode, true_or, and_true, true_and]
    intro _ _ next augmentation
    refine careful_expect_moved rfl (by simp) ?_
    simp [repeatUntil]
    intro y
    split
    · simp
    · simp [careful_terminator]
    · simp [careful_terminator]
    · simp

theorem isCareful_struct : IsCareful .struct :=
  isCareful_of_expect rfl rfl (fun _ => rfl) rfl nofun fun first => by
    simp [repeatUntil]
    intro y
    split <;> simp

theorem careful_topLevel {imports : Bool}
    (h : ∀ expected, (∀ y ∈ some x, rule.MayAsk y expected) → first expected) :
    (Grammar.topLevel rule imports).Careful first Round.Moves ⟨false, some x⟩ := by
  simp only [Grammar.topLevel, careful_bind, careful_child]
  exact ⟨.inr h, careful_terminator fun next => rfl⟩

theorem isCareful_compilationUnit : IsCareful .compilationUnit := by
  intro x
  have hfirst : ∀ expected, Rule.compilationUnit.MayAsk x expected := fun _ h => absurd rfl h
  simp only [Rule.reading, Grammar.compilationUnit, careful_bind, careful_skipNewlines, careful_child,
    blind_mk]
  refine ⟨.inr fun expected _ => hfirst expected, careful_terminator fun next => ?_⟩
  refine ⟨fun imports => ?_, fun _ => rfl⟩
  simp only [careful_bind, careful_skipNewlines, careful_peek, blind_mk]
  intro y
  split
  · simp
  · exact careful_topLevel fun _ _ => .inl trivial
  · exact careful_topLevel fun _ _ => .inl trivial
  · exact careful_topLevel fun _ _ => .inl trivial
  · exact careful_topLevel fun _ _ => .inl trivial
  · split
    · exact careful_topLevel fun _ _ => .inl trivial
    · simp [Grammar.topLevelStarts]
  · split <;> simp [Grammar.topLevelStarts]

/-! ## Statements -/

theorem isCareful_block : IsCareful .block :=
  isCareful_of_expect rfl rfl (fun _ => rfl) rfl nofun fun first => by
    simp [repeatUntil]
    intro _ y
    split
    · simp
    · simp
    · simp [careful_terminator]

theorem isCareful_statement : IsCareful .statement := by
  intro x
  simp only [Rule.reading, Grammar.statement, careful_bind, careful_peek_known]
  split
  case h_3 hkind =>
    simp only [careful_bind, careful_peekBehind]
    intro behind
    split
    · exact careful_enter_first (by simp) (by simp [Rule.starts, hkind])
    · exact careful_enter_first (by simp) (by simp [Rule.starts, hkind, Rule.expressionStarts, Rule.primaryStarts])
  case h_12 hkind => simp [hkind]
  case h_13 hkind => simp [hkind]
  case h_14 =>
    refine careful_enter_first (by simp) fun hstarts => ⟨rfl, ?_⟩
    simp_all [Rule.starts]
  all_goals
    next hkind => exact careful_enter_first (by simp) (by simp [Rule.starts, Rule.asks, hkind])

theorem isCareful_letOrVar : IsCareful .letOrVar := by
  intro x
  simp only [Rule.reading, Grammar.letOrVar, Grammar.binding, careful_bind, careful_peek_known]
  split <;> simp_all [Rule.MayAsk, Rule.asks, Rule.starts]

theorem isCareful_assignment : IsCareful .assignment := by
  intro x
  simp only [Rule.reading, Grammar.assignment, Grammar.binding, careful_bind,
    careful_identifier_known]
  split <;> simp_all [Rule.MayAsk, Rule.asks, Rule.starts]

theorem isCareful_return : IsCareful .return_ :=
  isCareful_of_expect rfl rfl (fun _ => rfl) rfl nofun fun first => by
    simp
    intro _ y
    split <;> simp

theorem isCareful_throw : IsCareful .throw :=
  isCareful_of_expect rfl rfl (fun _ => rfl) rfl nofun fun first => by simp

theorem isCareful_if : IsCareful .if_ :=
  isCareful_of_expect rfl rfl (fun _ => rfl) rfl nofun fun first => by
    simp
    intro _ y _ z
    split <;> simp

theorem isCareful_while : IsCareful .while_ :=
  isCareful_of_expect rfl rfl (fun _ => rfl) rfl nofun fun first => by simp

theorem isCareful_for : IsCareful .for_ :=
  isCareful_of_expect rfl rfl (fun _ => rfl) rfl nofun fun first => by
    simp [Grammar.clauseSeparator]

theorem isCareful_forEach : IsCareful .forEach :=
  isCareful_of_expect rfl rfl (fun _ => rfl) rfl nofun fun first => by
    simp

theorem isCareful_try : IsCareful .try_ :=
  isCareful_of_expect rfl rfl (fun _ => rfl) rfl nofun fun first => by
    simp [Grammar.optionalClause, Grammar.catchClause, Grammar.finallyClause]
    intro _ y
    split
    · simp
      intro _ z
      split <;> simp
    · simp
      split <;> simp

/-! ## Branchings -/

theorem isCareful_case : IsCareful .case_ :=
  isCareful_of_expect rfl rfl (fun _ => rfl) rfl nofun fun first => by simp

theorem isCareful_match : IsCareful .match_ :=
  isCareful_of_expect rfl rfl (fun _ => rfl) rfl nofun fun first => by simp

theorem isCareful_arms (form : BranchForm) (parent : NodeId) : IsCareful (.arms form parent) :=
  isCareful_of_expect rfl rfl (fun _ => rfl) rfl nofun fun first => by
    simp
    constructor <;>
    · intro y
      split <;> simp

theorem isCareful_when (form : BranchForm) : IsCareful (.when_ form) :=
  isCareful_of_expect rfl rfl (fun _ => rfl) rfl nofun fun first => by
    cases form <;> simp

theorem isCareful_otherwise (form : BranchForm) : IsCareful (.otherwise form) :=
  isCareful_of_expect rfl rfl (fun _ => rfl) rfl nofun fun first => by
    cases form <;> simp

/-! ## Expressions -/

theorem isCareful_expression (minPrecedence : Nat) : IsCareful (.expression minPrecedence) := by
  intro x
  simp only [Rule.reading, Grammar.expression, careful_bind, careful_enter, careful_repeating]
  refine ⟨.inr (mayAsk_of_rule (by simp) fun h => ⟨rfl, h⟩), fun _ => ⟨fun left => ?_, fun _ => rfl⟩⟩
  simp only [careful_peek]
  intro y
  split
  · simp
  · next op hop =>
    have hend : y.kind ≠ .endOfInput := by
      intro hend
      simp [hend, BinaryOperator.ofToken?] at hop
    split <;> simp [hend]

theorem isCareful_unary : IsCareful .unary := by
  intro x
  simp only [Rule.reading, Grammar.unary, careful_bind, careful_peek_known]
  split
  · next hop =>
    exact careful_enter_first (by simp) (by simp [Rule.starts, Rule.asks, Rule.expressionStarts, hop])
  · next op hop =>
    have hend : x.kind ≠ .endOfInput := by
      intro hend
      simp [hend, UnaryOperator.ofToken?] at hop
    simp [hend]

theorem isCareful_chain : IsCareful .chain := by
  intro x
  simp only [Rule.reading, Grammar.chain, Grammar.callOn, careful_bind, careful_enter,
    careful_repeating]
  refine ⟨.inr (mayAsk_of_rule (by simp) fun h => ⟨rfl, h⟩), fun _ => ⟨fun receiver => ?_, fun _ => rfl⟩⟩
  simp only [careful_peek]
  intro y
  split
  · next hy => simp [hy]
  · simp
  · simp

theorem isCareful_arguments (call : NodeId) : IsCareful (.arguments call) :=
  isCareful_of_expect rfl rfl (fun _ => rfl) rfl nofun fun first => by
    simp [repeatUntil]
    intro y _ z
    split <;> simp

theorem careful_literalText {value : String → Reading NodeId} {post : NodeId → Outlook → Prop}
    (hkind : x.kind.spellsValue)
    (h : ∀ text, x.text = some text → (value text).Careful first post ⟨moved, some x⟩) :
    (Grammar.literalText x value).Careful first post ⟨moved, some x⟩ := by
  rw [Grammar.literalText]
  split
  · next text htext => exact h text htext
  · exact careful_refuseLiteral.mpr ⟨x, rfl, .literalWithoutText hkind, rfl⟩

theorem careful_literalToken {value : Literal} (hend : x.kind ≠ .endOfInput) :
    (Grammar.literalToken value).Careful first (fun _ o => o.moved) ⟨moved, some x⟩ := by
  simp [Grammar.literalToken, hend]

theorem isCareful_primary : IsCareful .primary := by
  intro x
  simp only [Rule.reading, Grammar.primary, careful_bind, careful_look_known, Grammar.primaryOf]
  split
  case h_1 kind hkind =>
    refine careful_literalText (by simp [hkind, TokenKind.spellsValue]) fun text htext => ?_
    split
    · exact careful_literalToken (by simp [hkind])
    · next hvalue =>
      exact careful_refuseLiteral.mpr ⟨x, rfl, .invalidNumber hkind htext hvalue, rfl⟩
  case h_2 kind hkind =>
    exact careful_literalText (by simp [hkind, TokenKind.spellsValue]) fun text _ =>
      careful_literalToken (by simp [hkind])
  case h_3 hkind =>
    exact careful_literalText (by simp [hkind, TokenKind.spellsValue]) fun text _ =>
      careful_literalToken (by simp [hkind])
  case h_4 hkind | h_5 hkind | h_6 hkind => exact careful_literalToken (by simp [hkind])
  case h_7 hkind => simp [hkind]
  case h_8 hkind | h_9 hkind | h_11 hkind | h_12 hkind =>
    exact careful_enter_first (by simp) (by simp [Rule.starts, Rule.asks, hkind])
  case h_10 hkind =>
    simp only [careful_bind, careful_advance, advance_mk]
    exact careful_qualifiedName (by simp [hkind])
  case h_13 hkind =>
    have hnamed : (enter .named).Careful (Rule.primary.MayAsk x) (fun _ o => o.moved)
        ⟨false, some x⟩ := careful_enter_first (by simp) (by simp [Rule.starts, hkind])
    split
    · simp only [careful_bind, careful_peekBehind]
      intro behind
      split
      · simp [hkind]
      · exact hnamed
    · exact hnamed
  case h_14 => simp_all [Rule.MayAsk, Rule.asks, Rule.starts, Rule.primaryStarts]

theorem isCareful_named : IsCareful .named := by
  intro x
  rw [Rule.reading, Grammar.named, careful_bind]
  refine careful_qualifiedName ?_
  simp only [careful_identifier_known]
  split
  · refine ⟨trivial, fun name next => ?_⟩
    rw [careful_bind]
    refine careful_peek_any fun y => ?_
    split
    · simp
    · split
      · simp
      · split <;> simp
  · simp_all [Rule.MayAsk, Rule.asks, Rule.starts]

theorem isCareful_collection (type : CollectionKind) : IsCareful (.collection type) :=
  isCareful_of_expect rfl rfl (fun _ => rfl) rfl nofun fun first => by
    simp [repeatUntil]
    intro y _ z
    split <;> simp

theorem careful_reading (rule : Rule) : IsCareful rule := by
  cases rule with
  | compilationUnit => exact isCareful_compilationUnit
  | moduleDeclaration => exact isCareful_moduleDeclaration
  | importDeclaration => exact isCareful_importDeclaration
  | functionDeclaration => exact isCareful_functionDeclaration
  | function => exact isCareful_function
  | augmentation => exact isCareful_augmentation
  | struct => exact isCareful_struct
  | block => exact isCareful_block
  | statement => exact isCareful_statement
  | letOrVar => exact isCareful_letOrVar
  | assignment => exact isCareful_assignment
  | return_ => exact isCareful_return
  | throw => exact isCareful_throw
  | if_ => exact isCareful_if
  | while_ => exact isCareful_while
  | for_ => exact isCareful_for
  | forEach => exact isCareful_forEach
  | try_ => exact isCareful_try
  | case_ => exact isCareful_case
  | match_ => exact isCareful_match
  | arms form parent => exact isCareful_arms form parent
  | when_ form => exact isCareful_when form
  | otherwise form => exact isCareful_otherwise form
  | expression minPrecedence => exact isCareful_expression minPrecedence
  | unary => exact isCareful_unary
  | chain => exact isCareful_chain
  | arguments call => exact isCareful_arguments call
  | primary => exact isCareful_primary
  | named => exact isCareful_named
  | collection type => exact isCareful_collection type

/-! ## What comes of a rule -/

/-- Whatever the number of levels left, a rule reads something, or blames the token at which it
gives up. -/
theorem reports_enter {c : Context} (hend : c.endToken.kind = .endOfInput) (levels : Nat)
    (rule : Rule) (p : Position) {s : State} (hcount : s.rest.length ≤ c.tokenCount) :
    Reports c s s.rest.length (rule.MayAsk ((s.current c).lexeme s.tree.symbols))
      (fun _ o => o.moved) (Rule.enter c levels rule p s) := by
  induction levels generalizing rule p s with
  | zero => exact .fail (.tooDeep _) (.inr (.inl rfl))
  | succ levels ih =>
    refine reports_run hend (fun rule p {s} hcount => ih rule p hcount) rule.reading
      (careful_reading rule _) ⟨Nat.le_refl _, nofun, ?_⟩ hcount
    exact fun x hx => Option.some.inj hx

end Reading

/-! ## Token streams -/

namespace TokenStream

/-- The lexeme with an index; behind the last token stands the end of input. -/
def lexemeAt (s : TokenStream) (i : Nat) : Lexeme := s.lexemes[i]?.getD ⟨.endOfInput, none⟩

theorem lexemeAt_mem (s : TokenStream) (i : Nat) :
    s.lexemeAt i ∈ s.lexemes ∨ s.lexemeAt i = ⟨.endOfInput, none⟩ := by
  rw [lexemeAt]
  cases h : s.lexemes[i]? with
  | none => exact .inr rfl
  | some x => exact .inl (List.mem_of_getElem? h)

end TokenStream

open Reading

variable {stream : TokenStream} {limits : Limits}

/-- The lexeme with an index in front of the end of input, or of that end. -/
theorem lexeme_splitAtEnd (stream : TokenStream) {i : Nat}
    (hi : i ≤ (splitAtEnd stream.tokens).1.length) :
    ((splitAtEnd stream.tokens).1[i]?.getD (splitAtEnd stream.tokens).2).lexeme stream.symbols =
      stream.lexemeAt i := by
  rw [getD_splitAtEnd _ hi, TokenStream.lexemeAt, TokenStream.lexemes, List.getElem?_map,
    Array.getElem?_toList]
  cases stream.tokens[i]? <;> rfl

/-- Every token that is read stands in the stream, the end of input that is supplied apart. -/
theorem mem_splitAtEnd (stream : TokenStream) (i : Nat) :
    (splitAtEnd stream.tokens).1[i]?.getD (splitAtEnd stream.tokens).2 ∈ stream.tokens ∨
      ∃ p, (splitAtEnd stream.tokens).1[i]?.getD (splitAtEnd stream.tokens).2 = .endAt p := by
  cases hi : (splitAtEnd stream.tokens).1[i]? with
  | some token =>
    have hmem : token ∈ stream.tokens.toList.takeWhile (·.kind != .endOfInput) :=
      List.mem_of_getElem? hi
    exact .inl (Array.mem_toList_iff.mp ((List.takeWhile_prefix _).mem hmem))
  | none =>
    simp only [Option.getD_none, splitAtEnd]
    cases hfind : stream.tokens.toList.find? (·.kind == .endOfInput) with
    | some token => exact .inl (Array.mem_toList_iff.mp (List.mem_of_find?_eq_some hfind))
    | none => exact .inr ⟨_, rfl⟩

theorem hasText_splitAtEnd (h : stream.Resolves) (i : Nat) :
    ((splitAtEnd stream.tokens).1[i]?.getD (splitAtEnd stream.tokens).2).HasText stream.symbols := by
  rcases mem_splitAtEnd stream i with hmem | ⟨p, hp⟩
  · exact h _ hmem
  · rw [hp]
    nofun

/-- A token stream that is not read as a compilation unit is refused because of one of its
tokens, the end of input that stands behind the last one included. -/
theorem concerns_of_parse {e : ParseError} (hresolves : stream.Resolves)
    (h : parse stream limits = .error e) :
    ∃ i ≤ (splitAtEnd stream.tokens).1.length, e.position = stream.startOf i ∧
      e.fault.Concerns (stream.lexemeAt i) := by
  have hreports := reports_enter (stream.kind_endToken limits)
    limits.maxNestingDepth .compilationUnit .start
    (s := ⟨(splitAtEnd stream.tokens).1, .start, .ofSymbols stream.symbols⟩) (length_splitAtEnd _)
  rw [parse_eq] at h
  split at h
  · next e' hrun =>
    cases h
    rw [hrun] at hreports
    cases hreports with
    | @error _ left hblames =>
      obtain ⟨symbols, hwithin, hconcerns⟩ := hblames.concerns
      have hi := Nat.sub_le (splitAtEnd stream.tokens).1.length left.length
      have hhead : left.head?.getD (splitAtEnd stream.tokens).2 =
          (splitAtEnd stream.tokens).1[(splitAtEnd stream.tokens).1.length - left.length]?.getD
            (splitAtEnd stream.tokens).2 := by
        rw [getElem?_of_suffix hblames.suffix]
      refine ⟨_, hi, ?_, ?_⟩
      · rw [← startAt_splitAtEnd stream hi, startAt_of_suffix hblames.suffix]
        exact hblames.position
      · have htext := hasText_splitAtEnd hresolves
          ((splitAtEnd stream.tokens).1.length - left.length)
        rw [← lexeme_splitAtEnd stream hi, ← Token.lexeme_of_within htext hwithin, ← hhead]
        exact hconcerns
  · cases h

end GoloSyntax
