import GoloSyntax.Proofs.Reading.Parse

/-! # The layout of syntax trees

`NodeKind.Layout` is the layout of children that each kind of node promises, and
`Construct.HasLayout` adds what a branching promises about the branches of its arms.
Every tree that parsing gives has this layout at every node that can be reached.

What a phrase is read as is told by its alternatives (`Alternative.makes`), and so is the
layout of the node that an alternative makes (`Alternative.layout`); both are carried
through the whole tree by `Reads.induct`.
-/
namespace GoloSyntax

/-! ## Layouts -/

namespace NodeKind

/-- The kinds of expressions. -/
def isExpression : NodeKind → Bool
  | function .. | match_ | binary _ | unary _ | functionInvocation _ | methodInvocation _
  | anonymousCall | reference _ | functionRef _ | classLiteral _ | collection _ | literal _ => true
  | _ => false

/-- The kinds of statements; every expression is one. -/
def isStatement : NodeKind → Bool
  | letOrVar .. | assignment _ | return_ | throw | if_ | while_ | for_ | forEach _ | try_ | case_
  | break_ | continue_ => true
  | kind => kind.isExpression

def isImport : NodeKind → Bool
  | import_ _ => true
  | _ => false

def isFunctionDeclaration : NodeKind → Bool
  | functionDeclaration .. => true
  | _ => false

/-- The kinds of declarations behind the imports. -/
def isTopLevel : NodeKind → Bool
  | functionDeclaration .. | augmentation _ | struct _ => true
  | _ => false

def isParameter : NodeKind → Bool
  | parameter _ => true
  | _ => false

def isMember : NodeKind → Bool
  | member _ => true
  | _ => false

/-- The modifiers of a node, none for a kind without modifiers. -/
def modifiers (kind : NodeKind) : List Modifier := kind.modifiers?.getD []

/-- The layout that a kind of node promises: what its children are. -/
def Layout (kind : NodeKind) (children : List NodeKind) : Prop :=
  match kind with
  | compilationUnit => ∃ name imports declarations,
    children = module_ name :: (imports ++ declarations) ∧ (∀ k ∈ imports, k.isImport) ∧
      ∀ k ∈ declarations, k.isTopLevel
  | module_ _ | import_ _ | parameter _ | member _ | reference _ | functionRef _ | classLiteral _
  | literal _ | break_ | continue_ => children = []
  | functionDeclaration .. =>
    (∃ varargs compact, children = [function varargs compact]) ∧
      ∀ modifier ∈ kind.modifiers, modifier = .onlyLocal
  | function .. => ∃ parameters body, children = parameters ++ [body] ∧
    (∀ k ∈ parameters, k.isParameter) ∧ (body.isExpression ↔ .compact ∈ kind.modifiers) ∧
      (body = block ↔ .compact ∉ kind.modifiers) ∧ .onlyLocal ∉ kind.modifiers ∧
      (.varargs ∈ kind.modifiers → parameters ≠ [])
  | augmentation _ => ∀ k ∈ children, k.isFunctionDeclaration
  | struct _ => children ≠ [] ∧ ∀ k ∈ children, k.isMember
  | block => ∀ k ∈ children, k.isStatement
  | letOrVar .. | assignment _ | throw | unary _ => ∃ e, children = [e] ∧ e.isExpression
  | return_ => children = [] ∨ ∃ e, children = [e] ∧ e.isExpression
  | if_ => ∃ condition otherwise, children = condition :: block :: otherwise ∧
    condition.isExpression ∧ (otherwise = [] ∨ otherwise = [block] ∨ otherwise = [if_])
  | while_ => ∃ condition, children = [condition, block] ∧ condition.isExpression
  | for_ => ∃ name isMutable condition statement,
    children = [letOrVar name isMutable, condition, statement, block] ∧
      condition.isExpression ∧ statement.isStatement
  | forEach _ => ∃ iterable, children = [iterable, block] ∧ iterable.isExpression
  | try_ => ∃ name, children = [block, catch_ name] ∨ children = [block, catch_ name, finally_] ∨
    children = [block, finally_]
  | catch_ _ | finally_ => children = [block]
  | case_ | match_ => ∃ whens, children = whens ++ [otherwise] ∧ whens ≠ [] ∧
    ∀ k ∈ whens, k = when_
  | when_ => ∃ condition branch, children = [condition, branch] ∧ condition.isExpression ∧
    (branch = block ∨ branch.isExpression)
  | otherwise => ∃ branch, children = [branch] ∧ (branch = block ∨ branch.isExpression)
  | binary _ => ∃ left right, children = [left, right] ∧ left.isExpression ∧ right.isExpression
  | functionInvocation _ | collection _ => ∀ k ∈ children, k.isExpression
  | methodInvocation _ | anonymousCall => children ≠ [] ∧ ∀ k ∈ children, k.isExpression

end NodeKind

/-- Where the arms of a branching of a given form lead. -/
def BranchForm.Leads (form : BranchForm) (kind : NodeKind) : Prop :=
  match form with
  | .blocks => kind = .block
  | .values => kind.isExpression

namespace Construct

/-- The branch that an arm leads to, its last part. -/
def Branches (form : BranchForm) (arm : Construct) : Prop :=
  ∃ branch, arm.parts.getLast? = some branch ∧ form.Leads branch.kind

/-- A construct has the layout of its kind, and the arms of a branching lead to blocks in
a statement and to expressions in an expression. -/
structure HasLayout (x : Construct) : Prop where
  layout : x.kind.Layout (x.parts.map kind)
  blocks : x.kind = .case_ → ∀ arm ∈ x.parts, arm.Branches .blocks
  values : x.kind = .match_ → ∀ arm ∈ x.parts, arm.Branches .values

end Construct

/-! ## What phrases are read as -/

/-- One construct, with a property. -/
def One (Q : Construct → Prop) (xs : List Construct) : Prop := ∃ x, xs = [x] ∧ Q x

/-- An arm of a branching. -/
def IsArm (kind : NodeKind) (form : BranchForm) (x : Construct) : Prop :=
  x.kind = kind ∧ x.Branches form

/-- Any number of arms `when` and then one arm `otherwise`. -/
def Arms (form : BranchForm) (seen : Bool) (xs : List Construct) : Prop :=
  ∃ whens last, xs = whens ++ [last] ∧ (∀ x ∈ whens, IsArm .when_ form x) ∧
    IsArm .otherwise form last ∧ (seen = false → whens ≠ [])

/-- What a phrase is read as. -/
def Phrase.Makes (phrase : Phrase) (xs : List Construct) : Prop :=
  match phrase with
  | .compilationUnit => ∃ name imports declarations, xs.map Construct.kind =
      .module_ name :: (imports ++ declarations) ∧ (∀ k ∈ imports, k.isImport) ∧
      ∀ k ∈ declarations, k.isTopLevel
  | .declarations imports => ∃ is ds, xs.map Construct.kind = is ++ ds ∧
    (∀ k ∈ is, imports ∧ k.isImport) ∧ ∀ k ∈ ds, k.isTopLevel
  | .moduleDeclaration => One (fun x => ∃ name, x.kind = .module_ name) xs
  | .importDeclaration => One (fun x => x.kind.isImport) xs
  | .topLevel => One (fun x => x.kind.isTopLevel) xs
  | .functionDeclaration => One (fun x => x.kind.isFunctionDeclaration) xs
  | .function _ => One (fun x => ∃ varargs compact, x.kind = .function varargs compact) xs
  | .parameterList varargs => (∀ x ∈ xs, x.kind.isParameter) ∧ (varargs → xs ≠ [])
  | .parameters _ => (∀ x ∈ xs, x.kind.isParameter) ∧ xs ≠ []
  | .parameter => One (fun x => x.kind.isParameter) xs
  | .augmentation => One (fun x => ∃ name, x.kind = .augmentation name) xs
  | .struct => One (fun x => ∃ name, x.kind = .struct name) xs
  | .members => (∀ x ∈ xs, x.kind.isMember) ∧ xs ≠ []
  | .member => One (fun x => x.kind.isMember) xs
  | .block => One (fun x => x.kind = .block) xs
  | .lines .statements | .linesTail .statements => ∀ x ∈ xs, x.kind.isStatement
  | .lines .functions | .linesTail .functions => ∀ x ∈ xs, x.kind.isFunctionDeclaration
  | .letOrVar => One (fun x => ∃ name isMutable, x.kind = .letOrVar name isMutable) xs
  | .if_ => One (fun x => x.kind = .if_) xs
  | .catch_ => One (fun x => ∃ name, x.kind = .catch_ name) xs
  | .finally_ => One (fun x => x.kind = .finally_) xs
  | .statement | .assignment | .return_ | .throw | .while_ | .for_ | .forEach | .try_
  | .case_ => One (fun x => x.kind.isStatement) xs
  | .arms form => Arms form false xs
  | .whens form seen => Arms form seen xs
  | .when_ form => One (IsArm .when_ form) xs
  | .otherwise form => One (IsArm .otherwise form) xs
  | .match_ | .expression _ | .operands _ | .unary | .chain | .calls | .primary
  | .named => One (fun x => x.kind.isExpression) xs
  | .arguments | .argumentList | .collection | .elements => ∀ x ∈ xs, x.kind.isExpression

/-- Constructs that are the parts among some items. -/
def Item.Parts (Q : Phrase → List Construct → Prop) : List Item → List Construct → Prop
  | [], zs => zs = []
  | .part phrase :: items, zs => ∃ xs ys, Q phrase xs ∧ Parts Q items ys ∧ zs = xs ++ ys
  | _ :: items, zs => Parts Q items zs

section

variable {Q : Phrase → List Construct → Prop} {items : List Item} {zs : List Construct}

@[simp] theorem parts_nil : Item.Parts Q [] zs ↔ zs = [] := .rfl

@[simp] theorem parts_token {k : TokenKind} :
    Item.Parts Q (.token k :: items) zs ↔ Item.Parts Q items zs := .rfl

@[simp] theorem parts_newlines :
    Item.Parts Q (.newlines :: items) zs ↔ Item.Parts Q items zs := .rfl

@[simp] theorem parts_identifier {name : String} :
    Item.Parts Q (.identifier name :: items) zs ↔ Item.Parts Q items zs := .rfl

@[simp] theorem parts_qualified {segments : List String} :
    Item.Parts Q (.qualified segments :: items) zs ↔ Item.Parts Q items zs := .rfl

@[simp] theorem parts_literal {value : Literal} :
    Item.Parts Q (.literal value :: items) zs ↔ Item.Parts Q items zs := .rfl

@[simp] theorem parts_part {phrase : Phrase} : Item.Parts Q (.part phrase :: items) zs ↔
    ∃ xs ys, Q phrase xs ∧ Item.Parts Q items ys ∧ zs = xs ++ ys := .rfl

theorem parts_last {phrase : Phrase} : Item.Parts Q [.part phrase] zs ↔ Q phrase zs := by
  simp

end

/-- What every alternative hands on holds of everything that is read. -/
theorem Reads.induct {naming : Naming} {Q : Phrase → List Construct → Prop}
    (hQ : ∀ phrase body kind xs start stop, Alternative naming phrase body kind →
      Item.Parts Q body xs → Q phrase (wrap kind start stop xs))
    {n : Nat} {items : List Item} {s r : Reader} {xs : List Construct}
    (h : Reads naming n items s r xs) : Item.Parts Q items xs := by
  induction h with
  | nil => rfl
  | token _ _ _ ih | newlines _ ih | identifier _ _ ih | qualified _ _ ih | literal _ _ ih =>
    exact ih
  | part alt _ _ _ _ ihbody ih => exact ⟨_, _, hQ _ _ _ _ _ _ alt ihbody, ih, rfl⟩

theorem One.imp {Q Q' : Construct → Prop} {xs : List Construct} (h : One Q xs)
    (hQ : ∀ x, Q x → Q' x) : One Q' xs := by
  obtain ⟨x, rfl, hx⟩ := h
  exact ⟨x, rfl, hQ x hx⟩

namespace NodeKind

variable {k : NodeKind}

theorem isTopLevel_of_isFunctionDeclaration (h : k.isFunctionDeclaration) : k.isTopLevel := by
  cases k <;> first | rfl | cases h

theorem isStatement_of_isExpression (h : k.isExpression) : k.isStatement := by
  cases k <;> first | rfl | cases h

end NodeKind

theorem isExpression_of_nameDenotes {name : String} {kind : NodeKind} (h : NameDenotes name kind) :
    kind.isExpression ∧ ∀ children, kind.Layout children ↔ children = [] := by
  unfold NameDenotes at h
  split at h
  · subst h
    exact ⟨rfl, fun _ => .rfl⟩
  · obtain ⟨-, rfl⟩ := h
    exact ⟨rfl, fun _ => .rfl⟩

/-- What the statements of the table are read as. -/
theorem makes_statement {form : Phrase} {xs : List Construct} (hform : form ∈ Phrase.statementForms)
    (h : form.Makes xs) : One (fun x => x.kind.isStatement) xs := by
  simp only [Phrase.statementForms, List.mem_cons, List.not_mem_nil, or_false] at hform
  rcases hform with rfl | rfl | rfl | rfl | rfl | rfl | rfl | rfl | rfl | rfl | rfl
  · refine One.imp h fun x hx => ?_
    obtain ⟨_, _, hx⟩ := hx
    rw [hx]
    rfl
  iterate 3 exact h
  · exact One.imp h fun x hx => by rw [hx]; rfl
  iterate 5 exact h
  · exact One.imp h fun x hx => NodeKind.isStatement_of_isExpression hx

variable {phrase : Phrase} {body : List Item} {xs : List Construct}

/-- An alternative that makes no node hands on what its phrase is read as. -/
theorem Alternative.makes_of_none (alt : Alternative .byText phrase body none)
    (h : Item.Parts Phrase.Makes body xs) : phrase.Makes xs := by
  cases alt with
  | compilationUnit =>
    obtain ⟨_, ys, ⟨x, rfl, name, hx⟩, hys, rfl⟩ := h
    obtain ⟨is, ds, hkinds, his, hds⟩ := parts_last.mp hys
    exact ⟨name, is, ds, by simp [hx, hkinds], fun k hk => (his k hk).2, hds⟩
  | declarationsEnd | declarationsNewlines =>
    obtain rfl : xs = [] := h
    exact ⟨[], [], rfl, nofun, nofun⟩
  | declarationsImport =>
    obtain ⟨_, ys, ⟨x, rfl, hx⟩, hys, rfl⟩ := h
    obtain ⟨is, ds, hkinds, his, hds⟩ := parts_last.mp hys
    exact ⟨x.kind :: is, ds, by simp [hkinds], by simpa [hx] using fun k hk => (his k hk).2, hds⟩
  | declarationsTopLevel =>
    obtain ⟨_, ys, ⟨x, rfl, hx⟩, hys, rfl⟩ := h
    obtain ⟨is, ds, hkinds, his, hds⟩ := parts_last.mp hys
    obtain rfl : is = [] := List.eq_nil_iff_forall_not_mem.mpr fun k hk => by simpa using his k hk
    exact ⟨[], x.kind :: ds, by simpa using hkinds, nofun, by simpa [hx] using hds⟩
  | topLevelFunction =>
    exact One.imp (parts_last.mp h) fun x => NodeKind.isTopLevel_of_isFunctionDeclaration
  | topLevelAugmentation | topLevelStruct =>
    exact One.imp (parts_last.mp h) fun x ⟨_, hx⟩ => by rw [hx]; rfl
  | parameterListEmpty =>
    obtain rfl : xs = [] := h
    exact ⟨nofun, nofun⟩
  | parameterList =>
    obtain ⟨hall, hne⟩ := parts_last.mp h
    exact ⟨hall, fun _ => hne⟩
  | parametersLast | parametersVarargs =>
    obtain ⟨x, rfl, hx⟩ := parts_last.mp h
    exact ⟨by simpa using hx, by simp⟩
  | parametersMore =>
    obtain ⟨_, ys, ⟨x, rfl, hx⟩, hys, rfl⟩ := h
    obtain ⟨hall, -⟩ := parts_last.mp hys
    exact ⟨by simpa [hx] using hall, by simp⟩
  | membersMore =>
    obtain ⟨_, ys, ⟨x, rfl, hx⟩, hys, rfl⟩ := h
    obtain ⟨hall, -⟩ := parts_last.mp hys
    exact ⟨by simpa [hx] using hall, by simp⟩
  | membersLast =>
    obtain ⟨x, rfl, hx⟩ := parts_last.mp h
    exact ⟨by simpa using hx, by simp⟩
  | linesEnd form =>
    obtain rfl : xs = [] := h
    cases form <;> exact nofun
  | linesMore form =>
    obtain ⟨_, ys, hx, hys, rfl⟩ := h
    have hys := parts_last.mp hys
    cases form
    all_goals
      obtain ⟨x, rfl, hx⟩ := hx
      simpa [Phrase.Makes, hx] using hys
  | linesTailEnd form =>
    obtain rfl : xs = [] := h
    cases form <;> exact nofun
  | linesTailMore form =>
    have h := parts_last.mp h
    cases form <;> exact h
  | statement hform => exact makes_statement hform (parts_last.mp h)
  | arms form => exact parts_last.mp h
  | whensMore form seen =>
    obtain ⟨_, ys, ⟨x, rfl, hx⟩, hys, rfl⟩ := h
    obtain ⟨whens, last, rfl, hwhens, hlast, -⟩ := parts_last.mp hys
    exact ⟨x :: whens, last, rfl, by simpa [hx] using hwhens, hlast, by simp⟩
  | whensLast form =>
    obtain ⟨x, rfl, hx⟩ := parts_last.mp h
    exact ⟨[], x, rfl, nofun, hx, nofun⟩
  | expression | operandsFirst | unaryChain | chain | callsFirst | grouping | matchPrimary
  | named => exact parts_last.mp h
  | closure => exact One.imp (parts_last.mp h) fun x ⟨_, _, hx⟩ => by rw [hx]; rfl
  | argumentsNone | elementsEnd =>
    obtain rfl : xs = [] := h
    exact nofun
  | arguments | collection => exact parts_last.mp h
  | argumentsLast | elementsLast =>
    obtain ⟨x, rfl, hx⟩ := parts_last.mp h
    simpa [Phrase.Makes] using hx
  | argumentsMore | elementsMore =>
    obtain ⟨_, ys, ⟨x, rfl, hx⟩, hys, rfl⟩ := h
    simpa [Phrase.Makes, hx] using parts_last.mp hys

variable {kind : NodeKind} {span : Span}

/-- An alternative that makes a node makes one of a kind that its phrase is read as. -/
theorem Alternative.makes_of_some (alt : Alternative .byText phrase body (some kind))
    (h : Item.Parts Phrase.Makes body xs) : phrase.Makes [.mk kind span xs] := by
  cases alt with
  | moduleDeclaration | augmentation | struct | catch_ => exact ⟨_, rfl, _, rfl⟩
  | functionBlock | functionArrow | functionParametersBlock | functionParametersArrow | let_
  | var => exact ⟨_, rfl, _, _, rfl⟩
  | whenBlock =>
    obtain ⟨_, ys, -, hys, rfl⟩ := h
    obtain ⟨x, rfl, hx⟩ := parts_last.mp hys
    exact ⟨_, rfl, rfl, x, by simp, hx⟩
  | whenValue =>
    obtain ⟨_, ys, -, hys, rfl⟩ := h
    obtain ⟨x, rfl, hx⟩ := parts_last.mp hys
    exact ⟨_, rfl, rfl, x, by simp, hx⟩
  | otherwiseBlock =>
    obtain ⟨x, rfl, hx⟩ := parts_last.mp h
    exact ⟨_, rfl, rfl, x, rfl, hx⟩
  | otherwiseValue =>
    obtain ⟨x, rfl, hx⟩ := parts_last.mp h
    exact ⟨_, rfl, rfl, x, rfl, hx⟩
  | bareName hkind => exact ⟨_, rfl, (isExpression_of_nameDenotes hkind).1⟩
  | _ => exact ⟨_, rfl, rfl⟩

theorem One.kinds {Q : NodeKind → Prop} (h : One (fun x => Q x.kind) xs) :
    ∃ k, xs.map Construct.kind = [k] ∧ Q k := by
  obtain ⟨x, rfl, hx⟩ := h
  exact ⟨x.kind, rfl, hx⟩

/-- A function has the layout that its modifiers ask for. -/
theorem layout_function {varargs : Bool} (compact : Bool) (parameters : List Construct)
    {body : Construct} (hparameters : ∀ x ∈ parameters, x.kind.isParameter)
    (hvarargs : varargs → parameters ≠ [])
    (hbody : if compact then body.kind.isExpression else body.kind = .block) :
    NodeKind.Layout (.function varargs compact) ((parameters ++ [body]).map Construct.kind) := by
  refine ⟨parameters.map Construct.kind, body.kind, by simp, by simpa using hparameters, ?_⟩
  cases compact with
  | true =>
    have hne : body.kind ≠ .block := fun he => by
      rw [if_pos rfl, he] at hbody
      cases hbody
    have hexpression : body.kind.isExpression := hbody
    cases varargs <;> simp_all [NodeKind.modifiers, NodeKind.modifiers?]
  | false =>
    have hblock : body.kind = .block := by simpa using hbody
    have hno : NodeKind.isExpression .block = false := rfl
    cases varargs <;> simp_all [NodeKind.modifiers, NodeKind.modifiers?]

/-- The arms of a branching. -/
theorem layout_arms {form : BranchForm} (h : Arms form false xs) :
    (∃ whens, xs.map Construct.kind = whens ++ [.otherwise] ∧ whens ≠ [] ∧
      ∀ k ∈ whens, k = .when_) ∧ ∀ arm ∈ xs, arm.Branches form := by
  obtain ⟨whens, last, rfl, hwhens, hlast, hne⟩ := h
  refine ⟨⟨whens.map Construct.kind, by simp [hlast.1], by simpa using hne rfl, ?_⟩, ?_⟩
  · simpa using fun x hx => (hwhens x hx).1
  · intro arm harm
    rcases List.mem_append.mp harm with harm | harm
    · exact (hwhens arm harm).2
    · rw [List.mem_singleton.mp harm]
      exact hlast.2

/-- The node that an alternative makes has the layout of its kind. -/
theorem Alternative.layout (alt : Alternative .byText phrase body (some kind))
    (h : Item.Parts Phrase.Makes body xs) : kind.Layout (xs.map Construct.kind) := by
  cases alt with
  | moduleDeclaration | importDeclaration | parameter | member | literal | functionRef | break_
  | continue_ =>
    obtain rfl : xs = [] := h
    rfl
  | bareName hkind =>
    obtain rfl : xs = [] := h
    exact ((isExpression_of_nameDenotes hkind).2 _).mpr rfl
  | functionDeclaration | localFunctionDeclaration =>
    obtain ⟨x, rfl, varargs, compact, hx⟩ := parts_last.mp h
    exact ⟨⟨varargs, compact, by simp [hx]⟩, by simp [NodeKind.modifiers, NodeKind.modifiers?]⟩
  | functionBlock =>
    obtain ⟨x, rfl, hx⟩ := parts_last.mp h
    exact layout_function false [] nofun nofun hx
  | functionArrow =>
    obtain ⟨x, rfl, hx⟩ := parts_last.mp h
    exact layout_function true [] nofun nofun hx
  | functionParametersBlock =>
    obtain ⟨parameters, ys, ⟨hall, hne⟩, hys, rfl⟩ := h
    obtain ⟨x, rfl, hx⟩ := parts_last.mp hys
    exact layout_function false _ hall hne hx
  | functionParametersArrow =>
    obtain ⟨parameters, ys, ⟨hall, hne⟩, hys, rfl⟩ := h
    obtain ⟨x, rfl, hx⟩ := parts_last.mp hys
    exact layout_function true _ hall hne hx
  | augmentation =>
    have h : ∀ x ∈ xs, x.kind.isFunctionDeclaration := parts_last.mp h
    simpa [NodeKind.Layout] using h
  | struct =>
    obtain ⟨hall, hne⟩ := parts_last.mp h
    exact ⟨by simpa using hne, by simpa using hall⟩
  | block =>
    have h : ∀ x ∈ xs, x.kind.isStatement := parts_last.mp h
    simpa [NodeKind.Layout] using h
  | let_ | var | assignment | throw | unary => exact One.kinds (parts_last.mp h)
  | returnVoid =>
    obtain rfl : xs = [] := h
    exact .inl rfl
  | returnValue => exact .inr (One.kinds (parts_last.mp h))
  | if_ =>
    obtain ⟨_, ys, ⟨x, rfl, hx⟩, hys, rfl⟩ := h
    obtain ⟨y, rfl, hy⟩ := parts_last.mp hys
    exact ⟨x.kind, [], by simp [hy], hx, .inl rfl⟩
  | ifElseIf =>
    obtain ⟨_, ys, ⟨x, rfl, hx⟩, ⟨_, zs, ⟨y, rfl, hy⟩, hzs, rfl⟩, rfl⟩ := h
    obtain ⟨z, rfl, hz⟩ := parts_last.mp hzs
    exact ⟨x.kind, [.if_], by simp [hy, hz], hx, .inr (.inr rfl)⟩
  | ifElse =>
    obtain ⟨_, ys, ⟨x, rfl, hx⟩, ⟨_, zs, ⟨y, rfl, hy⟩, hzs, rfl⟩, rfl⟩ := h
    obtain ⟨z, rfl, hz⟩ := parts_last.mp hzs
    exact ⟨x.kind, [.block], by simp [hy, hz], hx, .inr (.inl rfl)⟩
  | while_ | forEach | forEachParenthesized =>
    obtain ⟨_, ys, ⟨x, rfl, hx⟩, hys, rfl⟩ := h
    obtain ⟨y, rfl, hy⟩ := parts_last.mp hys
    exact ⟨x.kind, by simp [hy], hx⟩
  | for_ =>
    obtain ⟨_, _, ⟨w, rfl, name, isMutable, hw⟩, ⟨_, _, ⟨x, rfl, hx⟩, ⟨_, _, ⟨y, rfl, hy⟩, hzs, rfl⟩,
      rfl⟩, rfl⟩ := h
    obtain ⟨z, rfl, hz⟩ := parts_last.mp hzs
    exact ⟨name, isMutable, x.kind, y.kind, by simp [hw, hz], hx, hy⟩
  | tryCatch =>
    obtain ⟨_, ys, ⟨x, rfl, hx⟩, hys, rfl⟩ := h
    obtain ⟨y, rfl, name, hy⟩ := parts_last.mp hys
    exact ⟨name, .inl (by simp [hx, hy])⟩
  | tryCatchFinally =>
    obtain ⟨_, ys, ⟨x, rfl, hx⟩, ⟨_, zs, ⟨y, rfl, name, hy⟩, hzs, rfl⟩, rfl⟩ := h
    obtain ⟨z, rfl, hz⟩ := parts_last.mp hzs
    exact ⟨name, .inr (.inl (by simp [hx, hy, hz]))⟩
  | tryFinally =>
    obtain ⟨_, ys, ⟨x, rfl, hx⟩, hys, rfl⟩ := h
    obtain ⟨y, rfl, hy⟩ := parts_last.mp hys
    exact ⟨"", .inr (.inr (by simp [hx, hy]))⟩
  | catch_ | finally_ =>
    obtain ⟨x, rfl, hx⟩ := parts_last.mp h
    exact congrArg (fun k => [k]) hx
  | case_ | match_ => exact (layout_arms (parts_last.mp h)).1
  | whenBlock =>
    obtain ⟨_, ys, ⟨x, rfl, hx⟩, hys, rfl⟩ := h
    obtain ⟨y, rfl, hy⟩ := parts_last.mp hys
    exact ⟨x.kind, y.kind, rfl, hx, .inl hy⟩
  | whenValue =>
    obtain ⟨_, ys, ⟨x, rfl, hx⟩, hys, rfl⟩ := h
    obtain ⟨y, rfl, hy⟩ := parts_last.mp hys
    exact ⟨x.kind, y.kind, rfl, hx, .inr hy⟩
  | otherwiseBlock =>
    obtain ⟨x, rfl, hx⟩ := parts_last.mp h
    exact ⟨x.kind, rfl, .inl hx⟩
  | otherwiseValue =>
    obtain ⟨x, rfl, hx⟩ := parts_last.mp h
    exact ⟨x.kind, rfl, .inr hx⟩
  | operandsMore =>
    obtain ⟨_, ys, ⟨x, rfl, hx⟩, hys, rfl⟩ := h
    obtain ⟨y, rfl, hy⟩ := parts_last.mp hys
    exact ⟨x.kind, y.kind, rfl, hx, hy⟩
  | callsMethod | callsAnonymous =>
    obtain ⟨_, ys, ⟨x, rfl, hx⟩, hys, rfl⟩ := h
    have hys : ∀ y ∈ ys, y.kind.isExpression := parts_last.mp hys
    exact ⟨by simp, by simpa [hx] using hys⟩
  | tuple | collectionWord | invocation =>
    have h : ∀ x ∈ xs, x.kind.isExpression := parts_last.mp h
    simpa [NodeKind.Layout] using h

theorem Alternative.hasLayout (alt : Alternative .byText phrase body (some kind))
    (h : Item.Parts Phrase.Makes body xs) : (Construct.mk kind span xs).HasLayout where
  layout := alt.layout h
  blocks hkind := by
    obtain rfl : kind = .case_ := hkind
    cases alt with
    | case_ => exact (layout_arms (parts_last.mp h)).2
    | bareName hname => exact absurd (isExpression_of_nameDenotes hname).1 (by decide)
  values hkind := by
    obtain rfl : kind = .match_ := hkind
    cases alt with
    | match_ => exact (layout_arms (parts_last.mp h)).2
    | bareName hname =>
      unfold Naming.byText NameDenotes at hname
      split at hname
      · cases hname
      · cases hname.2

/-! ## Every node -/

theorem parts_and {Q : Phrase → List Construct → Prop} {P : Construct → Prop} {items : List Item}
    {zs : List Construct} (h : Item.Parts (fun phrase xs => Q phrase xs ∧ ∀ x ∈ xs, P x) items zs) :
    Item.Parts Q items zs ∧ ∀ z ∈ zs, P z := by
  induction items generalizing zs with
  | nil =>
    obtain rfl : zs = [] := h
    exact ⟨rfl, nofun⟩
  | cons item items ih =>
    cases item with
    | part phrase =>
      obtain ⟨xs, ys, ⟨hxs, hP⟩, hys, rfl⟩ := h
      obtain ⟨hys, hP'⟩ := ih hys
      refine ⟨⟨xs, ys, hxs, hys, rfl⟩, fun z hz => ?_⟩
      rcases List.mem_append.mp hz with hz | hz
      · exact hP z hz
      · exact hP' z hz
    | _ => exact ih h

/-- What is read has the layouts of its kinds, everywhere. -/
theorem Reads.makes {n : Nat} {s r : Reader} (h : Reads .byText n [.part phrase] s r xs) :
    phrase.Makes xs ∧ ∀ x ∈ xs, x.Everywhere Construct.HasLayout := by
  refine parts_last.mp (h.induct (Q := fun phrase xs => phrase.Makes xs ∧
    ∀ x ∈ xs, x.Everywhere Construct.HasLayout) ?_)
  intro phrase body kind xs start stop alt hparts
  obtain ⟨hparts, hlayout⟩ := parts_and hparts
  cases kind with
  | none => exact ⟨alt.makes_of_none hparts, hlayout⟩
  | some kind =>
    refine ⟨alt.makes_of_some hparts, fun x hx => ?_⟩
    rw [List.mem_singleton.mp hx]
    exact Construct.everywhere_iff.mpr ⟨alt.hasLayout hparts, hlayout⟩

namespace Tree

/-- A node has the children that its kind promises, and the arms of a branching lead to
blocks in a statement and to expressions in an expression. -/
structure HasLayout (t : Tree) (id : NodeId) : Prop where
  layout : (t.kind id).Layout ((t.children id).map t.kind)
  blocks : t.kind id = .case_ → ∀ arm ∈ t.children id, ∃ branch,
    (t.children arm).getLast? = some branch ∧ t.kind branch = .block
  values : t.kind id = .match_ → ∀ arm ∈ t.children id, ∃ branch,
    (t.children arm).getLast? = some branch ∧ (t.kind branch).isExpression

variable {t : Tree} {id : NodeId} {x : Construct}

theorem map_kind_of_shows {ids : List NodeId} {xs : List Construct}
    (h : List.Forall₂ t.Shows ids xs) : ids.map t.kind = xs.map Construct.kind := by
  induction h with
  | nil => rfl
  | cons hx _ ih => simp [hx.kind_eq, ih]

theorem exists_last_of_shows {ids : List NodeId} {xs : List Construct}
    (h : List.Forall₂ t.Shows ids xs) (hx : xs.getLast? = some x) :
    ∃ id, ids.getLast? = some id ∧ t.Shows id x := by
  have hrev := List.forall₂_reverse_iff.mpr h
  rw [List.getLast?_eq_head?_reverse] at hx ⊢
  generalize ids.reverse = is at hrev
  generalize xs.reverse = ys at hrev hx
  cases hrev with
  | nil => cases hx
  | cons hshown _ =>
    cases hx
    exact ⟨_, rfl, hshown⟩

theorem exists_branch_of_shows {form : BranchForm} (h : t.Shows id x) (hsize : x.count ≤ t.size)
    (harms : ∀ arm ∈ x.parts, arm.Branches form) :
    ∀ arm ∈ t.children id, ∃ branch, (t.children arm).getLast? = some branch ∧
      form.Leads (t.kind branch) := by
  intro arm harm
  obtain ⟨y, hy, hshown⟩ := exists_of_mem_forall₂ (h.children hsize) harm
  obtain ⟨z, hz, hleads⟩ := harms y hy
  have hcount := ((Construct.Within.refl x).of_part hy).count_le
  obtain ⟨branch, hbranch, hz⟩ :=
    exists_last_of_shows (hshown.children (Nat.le_trans hcount hsize)) hz
  exact ⟨branch, hbranch, by rwa [hz.kind_eq]⟩

theorem Shows.hasLayout (h : t.Shows id x) (hsize : x.count ≤ t.size) (hx : x.HasLayout) :
    t.HasLayout id where
  layout := by
    rw [h.kind_eq, map_kind_of_shows (h.children hsize)]
    exact hx.layout
  blocks hkind := exists_branch_of_shows h hsize (hx.blocks (h.kind_eq.symm.trans hkind))
  values hkind := exists_branch_of_shows h hsize (hx.values (h.kind_eq.symm.trans hkind))

end Tree

variable {stream : TokenStream} {limits : Limits} {t : Tree} {id : NodeId}

/-- Whatever tokens a tree is made from and within whatever limits, every node that can be
reached has the layout of its kind. -/
theorem hasLayout_of_parse (h : parse stream limits = .ok t) (hid : t.Reaches id) :
    t.HasLayout id := by
  obtain ⟨r, xs, hreads, hshows, hsize⟩ := parse_sound h
  obtain ⟨hmakes, hlayout⟩ := hreads.makes
  have hcount : (Construct.mk .compilationUnit stream.unitSpan xs).count ≤ t.size := by
    simp [Construct.count, hsize]
  have hroot : (Construct.mk .compilationUnit stream.unitSpan xs).Everywhere
      Construct.HasLayout :=
    Construct.everywhere_iff.mpr ⟨⟨hmakes, by simp, by simp⟩, hlayout⟩
  obtain ⟨y, hy, hshown⟩ := hshows.exists_within hcount hid
  exact hshown.hasLayout (Nat.le_trans hy.count_le hcount) (hroot y hy)

/-- The tokens of `module m` and, on the next line, `function m = |m...| { }`, without
places and without an end of input. -/
def variadicFunction : TokenStream :=
  let (name, symbols) := SymbolTable.empty.intern "m"
  let bare (kind : TokenKind) : Token := ⟨kind, .empty .start, none⟩
  let word : Token := ⟨.identifier, .empty .start, some name⟩
  ⟨#[bare (.keyword .module_), word, bare .newline, bare (.keyword .function), word,
    bare (.mark .assign), bare (.mark .pipe), word, bare (.mark .ellipsis), bare (.mark .pipe),
    bare (.mark .leftBrace), bare (.mark .rightBrace)], symbols⟩

theorem hasLayout_of_variadicFunction : ∃ t, parse variadicFunction {} = .ok t ∧
    t.Reaches ⟨3⟩ ∧ t.kind ⟨3⟩ = .function true false ∧ t.HasLayout ⟨3⟩ := by
  have hparse : ((parse variadicFunction {}).toOption.map fun t =>
      decide (⟨2⟩ ∈ t.children Tree.root ∧ ⟨3⟩ ∈ t.children ⟨2⟩ ∧
        t.kind ⟨3⟩ = .function true false)) = some true := by
    decide +kernel
  cases ht : parse variadicFunction {} with
  | error e =>
    rw [ht] at hparse
    cases hparse
  | ok t =>
    rw [ht] at hparse
    obtain ⟨hdeclaration, hfunction, hkind⟩ := of_decide_eq_true (Option.some.inj hparse)
    have hreaches : t.Reaches ⟨3⟩ := .child (.child .root hdeclaration) hfunction
    exact ⟨t, rfl, hreaches, hkind, hasLayout_of_parse ht hreaches⟩

end GoloSyntax
