import GoloSyntax.Proofs.Reading.Frugal
import GoloSyntax.Proofs.Reading.Limits

/-! # Limits in proportion to the input

Every rule gets by with what its tokens pay for (`isFrugal_reading`).  A token stream is therefore
read the same way with any number of levels from five for each token on, and the tree has at most
one node for each token (`parse_of_extent`).
-/
namespace GoloSyntax

namespace Reading

/-- What a rule may rely on when it calls another one. -/
def IsFrugal (rule : Rule) : Prop :=
  ∀ kind, rule.reading.Frugal (fun _ b => 0 ≤ b.nodes)
    ⟨rule.demand kind - 1, rule.debt kind, some kind⟩

/-! ## Declarations -/

theorem isFrugal_compilationUnit : IsFrugal .compilationUnit := by
  intro kind
  simp only [Rule.reading, Grammar.compilationUnit, frugal_bind, frugal_skipNewlines, frugal_child,
    blind_purse]
  refine fun kind _ => ⟨by simp, by simp, frugal_terminator fun next => ?_⟩
  simp only [frugal_bind, frugal_repeating, frugal_skipNewlines, frugal_peek, blind_purse]
  refine ⟨fun imports kind _ => ?_, fun _ => by simp⟩
  split <;> try split
  all_goals simp [Grammar.topLevel, frugal_terminator]

theorem isFrugal_moduleDeclaration : IsFrugal .moduleDeclaration := by
  intro kind
  simp [Rule.reading, Grammar.moduleDeclaration, leaf]
  intro _
  exact frugal_qualifiedName_of fun name next => by simp

theorem isFrugal_importDeclaration : IsFrugal .importDeclaration := by
  intro kind
  simp [Rule.reading, Grammar.importDeclaration, leaf]
  intro _
  exact frugal_qualifiedName_of fun name next => by simp

theorem isFrugal_functionDeclaration : IsFrugal .functionDeclaration := by
  intro kind
  simp [Rule.reading, Grammar.functionDeclaration]
  refine ⟨fun _ declaration kind => ?_, fun _ _ declaration kind => ?_⟩
  · split <;> simp
  · split <;> simp

theorem frugal_parameters {function : NodeId} {post : Bool → Purse → Prop} {depth : Nat}
    {nodes : Int} (hnodes : 0 ≤ nodes) (h : ∀ varargs next, post varargs ⟨depth, nodes, next⟩) :
    (Grammar.parameters function).Frugal post ⟨depth, nodes, none⟩ := by
  simp [Grammar.parameters]
  intro kind
  split
  · exact h _ _
  · simp [leaf]
    refine ⟨⟨by omega, fun kind => ?_⟩, h false none, h true none⟩
    split
    · simp
      omega
    · simp
      intro kind
      split <;> simp
      omega
    · simp
    · simp

theorem frugal_function {kind : TokenKind} {depth : Nat} {nodes : Int}
    (hnodes : 0 < nodes ∨ nodes = 0 ∧ kind ≠ .endOfInput)
    (hbrace : kind = .mark .leftBrace → 2 ≤ depth ∧ 0 < nodes) :
    Grammar.function.Frugal (fun _ b => 0 ≤ b.nodes) ⟨depth, nodes, some kind⟩ := by
  have hle : 0 ≤ nodes := by omega
  simp only [Grammar.function, Grammar.parameterList, frugal_bind, frugal_openNode,
    frugal_accept_mark]
  refine ⟨by simpa using hnodes, fun function => ⟨fun _ => ?_, fun other hother _ => ?_⟩⟩
  · simp
    refine frugal_parameters hle fun varargs next => ?_
    simp
    intro _ kind
    split
    · simp
      omega
    · simp
      omega
    · simp
  · obtain rfl : other = kind := allows_some.mp hother
    simp
    split
    · simp
      have := hbrace rfl
      omega
    · simp
      omega
    · simp

theorem isFrugal_function : IsFrugal .function := by
  intro kind
  refine frugal_function ?_ ?_
  · unfold Rule.debt
    split <;> simp_all
  · rintro rfl
    simp

theorem isFrugal_augmentation : IsFrugal .augmentation := by
  intro kind
  simp [Rule.reading, Grammar.augmentation]
  intro _
  refine frugal_qualifiedName_of fun target next => ?_
  simp
  intro augmentation _ kind
  split <;> simp [frugal_terminator]

theorem isFrugal_struct : IsFrugal .struct := by
  intro kind
  simp [Rule.reading, Grammar.struct, leaf]
  intro _ kind
  split <;> simp

/-! ## Statements -/

theorem isFrugal_block : IsFrugal .block := by
  intro kind
  simp [Rule.reading, Grammar.block]
  intro _ block kind
  split <;> simp [frugal_terminator]

theorem isFrugal_statement : IsFrugal .statement := by
  intro kind
  simp [Rule.reading, Grammar.statement]
  split <;> simp [leaf]
  intro behind
  split <;> simp

theorem frugal_binding {kind : String → NodeKind} {depth : Nat} {nodes : Int}
    {next : Option TokenKind} (hnodes : 0 ≤ nodes) :
    (Grammar.binding kind).Frugal (fun _ b => 0 ≤ b.nodes) ⟨depth, nodes, next⟩ := by
  simp [Grammar.binding]
  omega

theorem isFrugal_letOrVar : IsFrugal .letOrVar := by
  intro kind
  simp [Rule.reading, Grammar.letOrVar]
  split <;> simp [frugal_binding]

theorem isFrugal_assignment : IsFrugal .assignment := fun _ => frugal_binding (Int.le_refl 0)

theorem isFrugal_return : IsFrugal .return_ := by
  intro kind
  simp [Rule.reading, Grammar.return_]
  intro _ node kind
  split <;> simp

theorem isFrugal_throw : IsFrugal .throw := by
  intro kind
  simp [Rule.reading, Grammar.throw]

theorem isFrugal_if : IsFrugal .if_ := by
  intro kind
  simp [Rule.reading, Grammar.if_]
  intro _ node kind
  split <;> simp

theorem isFrugal_while : IsFrugal .while_ := by
  intro kind
  simp [Rule.reading, Grammar.while_]

theorem isFrugal_for : IsFrugal .for_ := by
  intro kind
  simp [Rule.reading, Grammar.for_, Grammar.clauseSeparator]

theorem isFrugal_forEach : IsFrugal .forEach := by
  intro kind
  simp [Rule.reading, Grammar.forEach]

theorem frugal_optionalClause {node : NodeId} {keyword : Keyword} {clause : Reading NodeId}
    {post : Bool → Purse → Prop} {b : Purse}
    (hclause : clause.Frugal (fun _ => post true) ⟨b.depth, b.nodes, some (.keyword keyword)⟩)
    (hnone : ∀ kind, post false ⟨b.depth, b.nodes, some kind⟩) :
    (Grammar.optionalClause node keyword clause).Frugal post b := by
  simp only [Grammar.optionalClause, frugal_bind, frugal_peek]
  intro kind _
  split
  · next hkind =>
    subst hkind
    simp only [frugal_bind, frugal_framed]
    exact hclause
  · exact hnone kind

theorem frugal_tryEnd {node : NodeId} {caught : Bool} {depth : Nat} {nodes : Int}
    {next : Option TokenKind} (hnodes : 0 ≤ nodes) :
    (do
      let cleaned ← Grammar.optionalClause node .finally_ Grammar.finallyClause
      if caught || cleaned then closeNode node
      else reject [.token (.keyword .catch_), .token (.keyword .finally_)]).Frugal
      (fun _ b => 0 ≤ b.nodes) ⟨depth, nodes, next⟩ := by
  rw [frugal_bind]
  refine frugal_optionalClause ?_ fun kind => ?_
  · simp [Grammar.finallyClause]
    omega
  · split
    · exact hnodes
    · exact frugal_reject

theorem frugal_catchClause {depth : Nat} {nodes : Int} (hnodes : 0 ≤ nodes) :
    Grammar.catchClause.Frugal (fun _ b => 0 ≤ b.nodes) ⟨depth, nodes, some (.keyword .catch_)⟩ := by
  simp [Grammar.catchClause]
  omega

theorem isFrugal_try : IsFrugal .try_ := by
  intro kind
  simp only [Rule.reading, Grammar.try_, frugal_bind, frugal_expect_keyword, frugal_openNode,
    frugal_child]
  refine fun _ => ⟨by simp, fun node kind _ => ⟨by simp, by simp, ?_⟩⟩
  refine frugal_optionalClause ?_ fun kind => frugal_tryEnd (by simp)
  exact (frugal_catchClause (by simp)).imp fun _ _ h => frugal_tryEnd h

/-! ## Branchings -/

theorem isFrugal_case : IsFrugal .case_ := by
  intro kind
  simp [Rule.reading, Grammar.case_, Grammar.branching]

theorem isFrugal_match : IsFrugal .match_ := by
  intro kind
  simp [Rule.reading, Grammar.match_, Grammar.branching]

theorem isFrugal_arms (form : BranchForm) (parent : NodeId) : IsFrugal (.arms form parent) := by
  intro kind
  simp [Rule.reading, Grammar.arms]
  refine fun _ => ⟨fun kind => ?_, fun kind => ?_⟩
  · split <;> simp
  · split <;> simp

theorem isFrugal_when (form : BranchForm) : IsFrugal (.when_ form) := by
  intro kind
  simp [Rule.reading, Grammar.when_]
  cases form <;> simp

theorem isFrugal_otherwise (form : BranchForm) : IsFrugal (.otherwise form) := by
  intro kind
  simp [Rule.reading, Grammar.otherwise]
  cases form <;> simp

/-! ## Expressions -/

theorem isFrugal_expression (minPrecedence : Nat) : IsFrugal (.expression minPrecedence) := by
  intro kind
  simp [Rule.reading, Grammar.expression]
  intro left kind
  split
  · simp
  · next op hop =>
    have hend : kind ≠ .endOfInput := by
      rintro rfl
      cases hop
    split <;> simp [hend]

theorem isFrugal_unary : IsFrugal .unary := by
  intro kind
  simp [Rule.reading, Grammar.unary]
  split
  · simp
  · next op hop =>
    have hend : kind ≠ .endOfInput := by
      rintro rfl
      cases hop
    simp [hend]

theorem isFrugal_chain : IsFrugal .chain := by
  intro kind
  simp [Rule.reading, Grammar.chain, Grammar.callOn]
  intro receiver kind
  split <;> simp

theorem isFrugal_arguments (call : NodeId) : IsFrugal (.arguments call) := by
  intro kind
  simp [Rule.reading, Grammar.arguments]
  intro _ kind _ kind
  split <;> simp

theorem frugal_literalText {token : Lexeme} {value : String → Reading NodeId}
    {post : NodeId → Purse → Prop} {b : Purse} (h : ∀ text, (value text).Frugal post b) :
    (Grammar.literalText token value).Frugal post b := by
  unfold Grammar.literalText
  split
  · exact h _
  · simp [ParseFault.isLimit]

theorem frugal_primaryOf (token : Lexeme) :
    (Grammar.primaryOf token).Frugal (fun _ b => 0 ≤ b.nodes) ⟨1, 0, some token.kind⟩ := by
  obtain ⟨kind, text⟩ := token
  simp only [Grammar.primaryOf]
  split
  · refine frugal_literalText fun text => ?_
    split <;> simp [Grammar.literalToken, leaf, ParseFault.isLimit]
  · exact frugal_literalText fun text => by simp [Grammar.literalToken, leaf]
  · exact frugal_literalText fun text => by simp [Grammar.literalToken, leaf]
  · simp [Grammar.literalToken, leaf]
  · simp [Grammar.literalToken, leaf]
  · simp [Grammar.literalToken, leaf]
  · simp
  · simp
  · simp
  · simp only [frugal_bind, frugal_advance]
    exact frugal_qualifiedName_of fun name next => by simp [leaf]
  · simp
  · simp
  · split
    · simp only [frugal_bind, frugal_peekBehind]
      intro behind
      split <;> simp
    · simp
  · simp

theorem isFrugal_primary : IsFrugal .primary := by
  intro kind
  simp only [Rule.reading, Grammar.primary, frugal_bind, frugal_look, allows_some]
  rintro token rfl
  exact frugal_primaryOf token

theorem isFrugal_named : IsFrugal .named := by
  intro kind
  simp [Rule.reading, Grammar.named]
  refine frugal_qualifiedName_of fun name next => ?_
  simp
  intro kind _
  split
  · simp
  · split
    · simp [leaf]
    · split <;> simp [leaf]

theorem isFrugal_collection (type : CollectionKind) : IsFrugal (.collection type) := by
  intro kind
  simp [Rule.reading, Grammar.collection]
  intro _ _ _ kind
  split <;> simp

theorem isFrugal_reading (rule : Rule) : IsFrugal rule := by
  cases rule with
  | compilationUnit => exact isFrugal_compilationUnit
  | moduleDeclaration => exact isFrugal_moduleDeclaration
  | importDeclaration => exact isFrugal_importDeclaration
  | functionDeclaration => exact isFrugal_functionDeclaration
  | function => exact isFrugal_function
  | augmentation => exact isFrugal_augmentation
  | struct => exact isFrugal_struct
  | block => exact isFrugal_block
  | statement => exact isFrugal_statement
  | letOrVar => exact isFrugal_letOrVar
  | assignment => exact isFrugal_assignment
  | return_ => exact isFrugal_return
  | throw => exact isFrugal_throw
  | if_ => exact isFrugal_if
  | while_ => exact isFrugal_while
  | for_ => exact isFrugal_for
  | forEach => exact isFrugal_forEach
  | try_ => exact isFrugal_try
  | case_ => exact isFrugal_case
  | match_ => exact isFrugal_match
  | arms form parent => exact isFrugal_arms form parent
  | when_ form => exact isFrugal_when form
  | otherwise form => exact isFrugal_otherwise form
  | expression minPrecedence => exact isFrugal_expression minPrecedence
  | unary => exact isFrugal_unary
  | chain => exact isFrugal_chain
  | arguments call => exact isFrugal_arguments call
  | primary => exact isFrugal_primary
  | named => exact isFrugal_named
  | collection type => exact isFrugal_collection type

/-- Whatever the number of levels left, calls last if the tokens left pay for them. -/
theorem affordable_enter {c : Context} (hend : c.endToken.kind = .endOfInput) (levels : Nat) :
    Affordable c levels (Rule.enter c levels) := by
  induction levels with
  | zero =>
    intro rule p s hdepth
    have hpos : 0 < rule.demand (s.current c).kind := rule.demand_pos _
    omega
  | succ levels ih =>
    intro rule p s hdepth room hnodes hroom
    have hpos : 0 < rule.demand (s.current c).kind := rule.demand_pos _
    have hs : Purse.Covered ⟨rule.demand (s.current c).kind - 1, rule.debt (s.current c).kind,
        some (s.current c).kind⟩ c levels room s :=
      ⟨by simp only; omega, hnodes, allows_some.mpr rfl⟩
    exact (lasts_run hend hroom ih grows_enter rule.reading (isFrugal_reading rule _) hs).mono
      (Nat.le_succ levels)

end Reading

open Reading

/-- The number of tokens, with the end of input that is supplied where the last token is none. -/
def TokenStream.extent (stream : TokenStream) : Nat :=
  if stream.tokens.back?.any (·.kind == .endOfInput) then stream.size else stream.size + 1

variable {stream : TokenStream} {limits : Limits} {t : Tree}

theorem length_splitAtEnd_lt (stream : TokenStream) :
    (splitAtEnd stream.tokens).1.length < stream.extent := by
  unfold TokenStream.extent
  split
  · next hlast =>
    obtain ⟨token, hback, hkind⟩ := (Option.any_eq_true _ _).mp hlast
    refine Nat.lt_of_le_of_ne (length_splitAtEnd _) fun hlength => ?_
    -- Otherwise no token would be an end of input, not even the last one.
    have hall : (splitAtEnd stream.tokens).1 = stream.tokens.toList :=
      (List.takeWhile_sublist _).eq_of_length hlength
    have hmem : token ∈ stream.tokens.toList := Array.mem_toList_iff.mpr (Array.mem_of_back? hback)
    have hne := List.takeWhile_eq_self_iff.mp hall token hmem
    simp [eq_of_beq hkind] at hne
  · exact Nat.lt_succ_of_le (length_splitAtEnd _)

/-- Where the limits are in proportion to the input none of them is to blame, and the tree has at
most one node for each token. -/
theorem outcome_of_extent (hdepth : 5 * stream.extent ≤ limits.maxNestingDepth)
    (hnodes : stream.extent ≤ limits.maxTreeNodes) :
    (∀ e, parse stream limits = .error e → e.fault.isLimit = false) ∧
      ∀ t, parse stream limits = .ok t → t.size ≤ stream.extent := by
  have hlength : (splitAtEnd stream.tokens).1.length < stream.extent := length_splitAtEnd_lt stream
  -- The root is there from the beginning, and the end of input, which is never read, pays for it.
  have hroot : (1 : Int) + (splitAtEnd stream.tokens).1.length + 0 ≤ stream.extent := by omega
  have hlasts := affordable_enter (stream.kind_endToken limits)
    limits.maxNestingDepth .compilationUnit .start
    ⟨(splitAtEnd stream.tokens).1, .start, .ofSymbols stream.symbols⟩
    (by simp only [Rule.demand]; omega) stream.extent hroot (Int.ofNat_le.mpr hnodes)
  rw [parse_eq]
  revert hlasts
  generalize Rule.enter (stream.context limits) _ _ _ _ = x
  intro hlasts
  cases hlasts with
  | error h =>
    refine ⟨fun e he => ?_, fun t ht => (by cases ht)⟩
    rw [← Except.error.inj he]
    exact h
  | ok b hs hpost =>
    refine ⟨fun e he => (by cases he), fun t ht => ?_⟩
    rw [← Except.ok.inj ht]
    have hsize := hs.nodes
    rw [Tree.setSpan, Tree.size_modify]
    omega

/-- Within limits in proportion to the input, five levels and one node for each token, no limit
is ever to blame, and more levels than that are never entered.  Whatever the limits, a tree has at
most one node for each token. -/
theorem parse_of_extent (stream : TokenStream) (limits : Limits) :
    (5 * stream.extent ≤ limits.maxNestingDepth → stream.extent ≤ limits.maxTreeNodes →
      (∀ e, parse stream limits = .error e →
        e.kind ≠ .recursionLimitExceeded ∧ e.kind ≠ .limitExceeded) ∧
      parse stream limits = parse stream { limits with maxNestingDepth := 5 * stream.extent }) ∧
    ∀ t, parse stream limits = .ok t → t.size ≤ stream.extent := by
  refine ⟨fun hdepth hnodes => ⟨fun e he => ?_, ?_⟩, fun t ht => ?_⟩
  · have hlimit : e.fault.isLimit = false := (outcome_of_extent hdepth hnodes).1 e he
    constructor <;> intro hkind
    · exact absurd (ParseFault.isLimit_iff.mpr (.inl hkind)) (by simp [hlimit])
    · exact absurd (ParseFault.isLimit_iff.mpr (.inr hkind)) (by simp [hlimit])
  · let narrow : Limits := { limits with maxNestingDepth := 5 * stream.extent }
    have hnarrow : 5 * stream.extent ≤ narrow.maxNestingDepth := Nat.le_refl _
    refine parse_eq_of_room hdepth (Nat.le_refl _) fun e he => ?_
    simp [(outcome_of_extent hnarrow hnodes).1 e he]
  · let wide : Limits := { limits with
      maxNestingDepth := max limits.maxNestingDepth (5 * stream.extent)
      maxTreeNodes := max limits.maxTreeNodes stream.extent }
    have hwide : parse stream wide = .ok t := by
      rw [← ht]
      refine parse_eq_of_room (Nat.le_max_left _ _) (Nat.le_max_left _ _) fun e he => ?_
      rw [ht] at he
      cases he
    exact (outcome_of_extent (Nat.le_max_right _ _) (Nat.le_max_right _ _)).2 t hwide

/-- Ten tokens and the end of input supplied behind them: 55 levels are enough. -/
theorem parse_sumFunction_of_extent : sumFunction.extent = 11 ∧
    parse sumFunction { maxNestingDepth := 1000 } = parse sumFunction { maxNestingDepth := 55 } :=
  ⟨by decide, ((parse_of_extent sumFunction { maxNestingDepth := 1000 }).1 (by decide)
    (by decide)).2⟩

end GoloSyntax
