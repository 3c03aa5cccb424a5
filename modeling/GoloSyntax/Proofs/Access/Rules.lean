import GoloSyntax.Proofs.Access.Hold

/-! # Every rule is safe

Each rule keeps to what it has hold of (`isSafe_reading`): it reads a token only after it has seen
that there is one, and it works on nodes that it has made itself or that its caller has handed on.
-/
namespace GoloSyntax.Reading

/-- What a rule may rely on when it is called: the nodes it is given, and the kind of the next
token.  It answers with a node of the tree. -/
def IsSafe (rule : Rule) : Prop :=
  ∀ kind, rule.reading.Safe (fun id h => id ∈ h.nodes) ⟨Tree.root :: rule.nodes, [], some kind, 0⟩

-- Each proof below opens one rule and asks for the names that its nodes hold.
attribute [local simp] Rule.reading NodeKind.name?

/-! ## Declarations -/

theorem isSafe_compilationUnit : IsSafe .compilationUnit := by
  intro kind
  simp [Grammar.compilationUnit]
  refine fun id => safe_terminator fun texts next _ => ?_
  simp
  refine safe_repeating (fun imports => ?_) fun _ => by simp
  simp
  intro kind text
  split <;> try split
  all_goals simp [Grammar.topLevel, safe_terminator]

theorem isSafe_moduleDeclaration : IsSafe .moduleDeclaration := by
  intro kind
  simp [Grammar.moduleDeclaration]
  intro _ _
  exact safe_qualifiedName fun name texts next entries hname _ _ => by
    simp [hname]

theorem isSafe_importDeclaration : IsSafe .importDeclaration := by
  intro kind
  simp [Grammar.importDeclaration]
  intro _ _
  exact safe_qualifiedName fun name texts next entries hname _ _ => by
    simp [hname]

theorem isSafe_functionDeclaration : IsSafe .functionDeclaration := by
  intro kind
  simp [Grammar.functionDeclaration]
  constructor
  · intros
    split <;> simp
  · intros
    split <;> simp

theorem safe_parameters {function : NodeId} {post : Bool → Hold → Prop} {h : Hold}
    (hfunction : function ∈ h.nodes)
    (hpost : ∀ varargs texts next, post varargs ⟨h.nodes, texts, next, h.entries⟩) :
    (Grammar.parameters function).Safe post h := by
  simp [Grammar.parameters]
  intro kind _ text
  split
  · exact hpost _ _ _
  · refine safe_repeatUntil ?_ fun _ => hpost _ _ _
    simp [hfunction, Hold.among]
    intro name id kind text
    split
    · simp
    · simp
      intro kind text
      split <;> simp
    · simp
    · simp

theorem isSafe_function : IsSafe .function := by
  intro kind
  simp [Grammar.function, Grammar.parameterList]
  intro function
  constructor
  · intro _ text
    refine safe_parameters (by simp) fun varargs texts next => ?_
    simp
    intro _ text kind text'
    split <;> simp
  · intro _ text text'
    split <;> simp

theorem isSafe_augmentation : IsSafe .augmentation := by
  intro kind
  simp [Grammar.augmentation]
  intro _ text
  refine safe_qualifiedName fun target texts next entries htarget _ _ => ?_
  simp [htarget]
  intro augmentation _ text'
  refine safe_repeatUntil ?_ fun _ => by simp
  simp
  intro kind text
  split <;> simp [safe_terminator]

theorem isSafe_struct : IsSafe .struct := by
  intro kind
  simp [Grammar.struct]
  intros
  refine safe_repeatUntil ?_ fun _ => by simp
  simp
  intro name id kind text
  split <;> simp

/-! ## Statements -/

theorem isSafe_block : IsSafe .block := by
  intro kind
  simp [Grammar.block]
  intro _ text block
  refine safe_repeatUntil ?_ fun _ => by simp
  simp
  intro kind text
  split <;> simp [safe_terminator]

theorem isSafe_statement : IsSafe .statement := by
  intro kind
  simp [Grammar.statement]
  intro text
  split <;> simp
  intro behind
  split <;> simp

theorem safe_binding {kind : String → NodeKind} {h : Hold}
    (hkind : ∀ name, (kind name).texts = [name]) :
    (Grammar.binding kind).Safe (fun id h => id ∈ h.nodes) h := by
  simp [Grammar.binding, hkind, -NodeKind.texts]

theorem isSafe_letOrVar : IsSafe .letOrVar := by
  intro kind
  simp [Grammar.letOrVar]
  intro text
  split
  · simpa using safe_binding fun _ => rfl
  · simpa using safe_binding fun _ => rfl
  · simp

theorem isSafe_assignment : IsSafe .assignment := fun _ => safe_binding fun _ => rfl

theorem isSafe_return : IsSafe .return_ := by
  intro kind
  simp [Grammar.return_]
  intro _ _ node kind text
  split <;> simp

theorem isSafe_throw : IsSafe .throw := by
  intro kind
  simp [Grammar.throw]

theorem isSafe_if : IsSafe .if_ := by
  intro kind
  simp [Grammar.if_]
  intros
  split <;> simp

theorem isSafe_while : IsSafe .while_ := by
  intro kind
  simp [Grammar.while_]

theorem isSafe_for : IsSafe .for_ := by
  intro kind
  simp [Grammar.for_, Grammar.clauseSeparator]

theorem isSafe_forEach : IsSafe .forEach := by
  intro kind
  simp [Grammar.forEach]

theorem safe_optionalClause {node : NodeId} {keyword : Keyword} {clause : Reading NodeId}
    {post : Bool → Hold → Prop} {h : Hold}
    (hclause : ∀ text : Option String, clause.Safe
      (fun id h' => id ∈ h'.nodes ∧ node ∈ h'.nodes ∧ post true h')
      ⟨h.nodes, text.toList ++ h.texts, some (.keyword keyword), h.entries⟩)
    (hpost : ∀ texts kind, post false ⟨h.nodes, texts, some kind, h.entries⟩) :
    (Grammar.optionalClause node keyword clause).Safe post h := by
  simp only [Grammar.optionalClause, safe_bind, safe_peek]
  intro kind _ text
  split
  · next hkind =>
    subst hkind
    rw [safe_bind, safe_framed]
    refine (hclause text).imp fun id h hid => ?_
    rw [safe_bind, safe_attach, safe_pure]
    exact ⟨⟨hid.2.1, hid.1⟩, hid.2.2⟩
  · exact hpost _ _

/-- What follows the block of a `try`, or its `catch`. -/
theorem safe_tryEnd {node : NodeId} {caught : Bool} {h : Hold} (hnode : node ∈ h.nodes) :
    (do
      let cleaned ← Grammar.optionalClause node .finally_ Grammar.finallyClause
      if caught || cleaned then closeNode node
      else reject [.token (.keyword .catch_), .token (.keyword .finally_)]).Safe
      (fun id h => id ∈ h.nodes) h := by
  rw [safe_bind]
  refine safe_optionalClause (fun text => ?_) fun texts kind => ?_
  · simp [Grammar.finallyClause, hnode]
  · split <;> simp [hnode]

theorem safe_catchClause {node : NodeId} {h : Hold} (hnode : node ∈ h.nodes) :
    Grammar.catchClause.Safe (fun id h => id ∈ h.nodes ∧ node ∈ h.nodes) h := by
  simp [Grammar.catchClause, Hold.among, Hold.gain, hnode]

theorem isSafe_try : IsSafe .try_ := by
  intro kind
  simp only [Rule.reading, Grammar.try_, safe_bind, safe_expect_keyword, safe_openNode, safe_child]
  refine fun _ text => ⟨by simp, fun node => ⟨by simp, fun id => ⟨by simp, ?_⟩⟩⟩
  refine safe_optionalClause (fun text => ?_) fun texts kind => safe_tryEnd (by simp)
  exact (safe_catchClause (by simp)).imp fun id h hid => ⟨hid.1, hid.2, safe_tryEnd hid.2⟩

/-! ## Branchings -/

theorem isSafe_case : IsSafe .case_ := by
  intro kind
  simp [Grammar.case_, Grammar.branching]

theorem isSafe_match : IsSafe .match_ := by
  intro kind
  simp [Grammar.match_, Grammar.branching]

theorem isSafe_arms (form : BranchForm) (parent : NodeId) : IsSafe (.arms form parent) := by
  intro kind
  simp [Grammar.arms]
  intro _ text
  refine safe_repeating (fun seen => ?_) fun _ => by simp
  simp
  intro kind text'
  split <;> try split
  all_goals simp

theorem isSafe_when (form : BranchForm) : IsSafe (.when_ form) := by
  intro kind
  simp [Grammar.when_]
  cases form <;> simp

theorem isSafe_otherwise (form : BranchForm) : IsSafe (.otherwise form) := by
  intro kind
  simp [Grammar.otherwise]
  cases form <;> simp

/-! ## Expressions -/

theorem isSafe_expression (minPrecedence : Nat) : IsSafe (.expression minPrecedence) := by
  intro kind
  simp [Grammar.expression]
  intro first
  refine safe_repeating_nodes (by simp) (fun left => ?_) fun _ => by simp
  simp
  intro kind text
  split
  · simp
  · next op hop =>
    have hend : kind ≠ .endOfInput := by
      rintro rfl
      cases hop
    split <;> simp [hend]

theorem isSafe_unary : IsSafe .unary := by
  intro kind
  simp [Grammar.unary]
  intro text
  split
  · simp
  · next op hop =>
    have hend : kind ≠ .endOfInput := by
      rintro rfl
      cases hop
    simp [hend]

theorem isSafe_chain : IsSafe .chain := by
  intro kind
  simp [Grammar.chain]
  intro first
  refine safe_repeating_nodes (by simp) (fun receiver => ?_) fun _ => by simp
  simp
  intro kind text
  split <;> simp [Grammar.callOn]

theorem isSafe_arguments (call : NodeId) : IsSafe (.arguments call) := by
  intro kind
  simp [Grammar.arguments]
  intro _ text kind _ text'
  refine safe_repeatUntil ?_ fun _ => by simp
  simp
  intro id kind text
  split <;> simp

theorem safe_literalText {token : Lexeme} {value : String → Reading NodeId}
    {post : NodeId → Hold → Prop} {h : Hold}
    (hvalue : ∀ text, token.text = some text → (value text).Safe post h) :
    (Grammar.literalText token value).Safe post h := by
  unfold Grammar.literalText
  split
  · next text htext => exact hvalue text htext
  · exact safe_refuseLiteral

theorem texts_of_ofNumber? {kind : NumberKind} {text : String} {value : Literal}
    (h : Literal.ofNumber? kind text = some value) : (NodeKind.literal value).texts = [] := by
  cases kind <;> obtain ⟨n, -, rfl⟩ := Option.map_eq_some_iff.mp h <;> rfl

theorem safe_primaryOf (token : Lexeme) :
    (Grammar.primaryOf token).Safe (fun id h => id ∈ h.nodes)
      ⟨[Tree.root], token.text.toList, some token.kind, 0⟩ := by
  obtain ⟨kind, text⟩ := token
  simp only [Grammar.primaryOf]
  split
  · refine safe_literalText fun text _ => ?_
    split
    · next value hvalue => simp [Grammar.literalToken, texts_of_ofNumber? hvalue, -NodeKind.texts]
    · exact safe_refuseLiteral
  · exact safe_literalText fun text htext => by simp_all [Grammar.literalToken]
  · exact safe_literalText fun text _ => by simp [Grammar.literalToken]
  · simp [Grammar.literalToken]
  · simp [Grammar.literalToken]
  · simp [Grammar.literalToken]
  · simp
  · simp
  · simp
  · simp only [safe_bind, safe_advance]
    refine ⟨by simp, safe_qualifiedName fun name texts next entries hname _ _ => ?_⟩
    simp [hname]
  · simp
  · simp
  · split
    · simp only [safe_bind, safe_peekBehind]
      refine ⟨by simp, fun behind => ?_⟩
      split <;> simp
    · simp
  · simp

theorem isSafe_primary : IsSafe .primary := by
  intro kind
  simp only [Rule.reading, Grammar.primary, safe_bind, safe_look, allows_known]
  rintro token rfl
  simpa using safe_primaryOf token

theorem isSafe_named : IsSafe .named := by
  intro kind
  simp [Grammar.named]
  refine safe_qualifiedName fun name texts next entries hname _ hentries => ?_
  simp
  intro kind _ text
  split
  · simp [hname]
  · split
    · simp [hentries]
    · split <;> simp [hname]

theorem isSafe_collection (type : CollectionKind) : IsSafe (.collection type) := by
  intro kind
  simp [Grammar.collection]
  intro _ text node
  refine safe_repeatUntil ?_ fun _ => by simp
  simp
  intro kind _ text id kind' text'
  split <;> simp

theorem isSafe_reading (rule : Rule) : IsSafe rule := by
  cases rule with
  | compilationUnit => exact isSafe_compilationUnit
  | moduleDeclaration => exact isSafe_moduleDeclaration
  | importDeclaration => exact isSafe_importDeclaration
  | functionDeclaration => exact isSafe_functionDeclaration
  | function => exact isSafe_function
  | augmentation => exact isSafe_augmentation
  | struct => exact isSafe_struct
  | block => exact isSafe_block
  | statement => exact isSafe_statement
  | letOrVar => exact isSafe_letOrVar
  | assignment => exact isSafe_assignment
  | return_ => exact isSafe_return
  | throw => exact isSafe_throw
  | if_ => exact isSafe_if
  | while_ => exact isSafe_while
  | for_ => exact isSafe_for
  | forEach => exact isSafe_forEach
  | try_ => exact isSafe_try
  | case_ => exact isSafe_case
  | match_ => exact isSafe_match
  | arms form parent => exact isSafe_arms form parent
  | when_ form => exact isSafe_when form
  | otherwise form => exact isSafe_otherwise form
  | expression minPrecedence => exact isSafe_expression minPrecedence
  | unary => exact isSafe_unary
  | chain => exact isSafe_chain
  | arguments call => exact isSafe_arguments call
  | primary => exact isSafe_primary
  | named => exact isSafe_named
  | collection type => exact isSafe_collection type

end GoloSyntax.Reading
