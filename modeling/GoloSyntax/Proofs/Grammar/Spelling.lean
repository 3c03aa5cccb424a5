import GoloSyntax.Proofs.Grammar.Parts

/-! # How items spell words

`Spells good items w` says that `w` is made up of what the items stand for, each phrase by a word
that is `good` for it.  If every alternative passes `good` on from its parts to its phrase, every
derivation has it (`Derives.spells`): that is induction over derivations, one case for each
alternative of the table.

Which lexeme comes next decides most of what a reader does.  `Phrase.heads` says what a phrase may
begin with, `Phrase.follow` what may stand behind it, and the table respects both
(`Alternative.linked`).
-/
namespace GoloSyntax

/-- The words that a sequence of items spells. -/
inductive Spells (good : Phrase → List Lexeme → Prop) : List Item → List Lexeme → Prop where
  | nil : Spells good [] []
  | token {l : Lexeme} {items : List Item} {w : List Lexeme}
      (h : Spells good items w) : Spells good (.token l.kind :: items) (l :: w)
  | newlines {ns : List Lexeme} {items : List Item} {w : List Lexeme}
      (hns : ∀ l ∈ ns, l.kind = .newline) (h : Spells good items w) :
    Spells good (.newlines :: items) (ns ++ w)
  | identifier {name : String} {items : List Item} {w : List Lexeme}
      (h : Spells good items w) :
    Spells good (.identifier name :: items) (⟨.identifier, some name⟩ :: w)
  | qualified {segments : List String} {items : List Item} {u w : List Lexeme}
      (hu : Dotted segments u) (h : Spells good items w) :
    Spells good (.qualified segments :: items) (u ++ w)
  | literal {value : Literal} {l : Lexeme} {items : List Item} {w : List Lexeme}
      (hl : l.kind.isLiteral) (h : Spells good items w) :
    Spells good (.literal value :: items) (l :: w)
  | part {phrase : Phrase} {items : List Item} {u w : List Lexeme}
      (hu : good phrase u) (h : Spells good items w) :
    Spells good (.part phrase :: items) (u ++ w)

variable {good : Phrase → List Lexeme → Prop} {items : List Item} {phrase : Phrase}
  {u v w rest : List Lexeme}

/-- What every alternative passes on to its phrase, every derivation has. -/
theorem Derives.spells {rules : Rules} (hgood : ∀ {phrase body kind u}, rules phrase body kind →
    Spells good body u → good phrase u) (h : Derives rules items w) : Spells good items w := by
  induction h with
  | nil => exact .nil
  | token _ ih => exact .token ih
  | newlines hns _ ih => exact .newlines hns ih
  | identifier _ ih => exact .identifier ih
  | qualified hu _ ih => exact .qualified hu ih
  | literal hl _ ih => exact .literal hl ih
  | part alt _ _ ihbody ih => exact .part (hgood alt ihbody) ih

namespace Spells

/-! What each item spells. -/

theorem nil_iff : Spells good [] w ↔ w = [] := by
  constructor
  · intro h
    cases h
    rfl
  · rintro rfl
    exact .nil

theorem token_iff {kind : TokenKind} : Spells good (.token kind :: items) w ↔
    ∃ l w', w = l :: w' ∧ l.kind = kind ∧ Spells good items w' := by
  constructor
  · intro h
    cases h with
    | token h => exact ⟨_, _, rfl, rfl, h⟩
  · rintro ⟨l, w', rfl, rfl, h⟩
    exact .token h

theorem newlines_iff : Spells good (.newlines :: items) w ↔
    ∃ ns w', w = ns ++ w' ∧ (∀ l ∈ ns, l.kind = .newline) ∧ Spells good items w' := by
  constructor
  · intro h
    cases h with
    | newlines hns h => exact ⟨_, _, rfl, hns, h⟩
  · rintro ⟨ns, w', rfl, hns, h⟩
    exact .newlines hns h

theorem identifier_iff {name : String} : Spells good (.identifier name :: items) w ↔
    ∃ w', w = ⟨.identifier, some name⟩ :: w' ∧ Spells good items w' := by
  constructor
  · intro h
    cases h with
    | identifier h => exact ⟨_, rfl, h⟩
  · rintro ⟨w', rfl, h⟩
    exact .identifier h

theorem qualified_iff {segments : List String} : Spells good (.qualified segments :: items) w ↔
    ∃ u w', w = u ++ w' ∧ Dotted segments u ∧ Spells good items w' := by
  constructor
  · intro h
    cases h with
    | qualified hu h => exact ⟨_, _, rfl, hu, h⟩
  · rintro ⟨u, w', rfl, hu, h⟩
    exact .qualified hu h

theorem literal_iff {value : Literal} : Spells good [.literal value] w ↔
    ∃ l, w = [l] ∧ l.kind.isLiteral := by
  constructor
  · intro h
    cases h with
    | literal hl h => exact ⟨_, by rw [nil_iff.mp h], hl⟩
  · rintro ⟨l, rfl, hl⟩
    exact .literal hl .nil

theorem part_iff : Spells good (.part phrase :: items) w ↔
    ∃ u w', w = u ++ w' ∧ good phrase u ∧ Spells good items w' := by
  constructor
  · intro h
    cases h with
    | part hu h => exact ⟨_, _, rfl, hu, h⟩
  · rintro ⟨u, w', rfl, hu, h⟩
    exact .part hu h

theorem single_iff : Spells good [.part phrase] w ↔ good phrase w := by
  rw [part_iff]
  constructor
  · rintro ⟨u, w', rfl, hu, h⟩
    rw [nil_iff] at h
    rwa [h, List.append_nil]
  · intro h
    exact ⟨w, [], (List.append_nil w).symm, h, .nil⟩

end Spells

/-! ## What comes first -/

/-- The kind of the lexeme that a word begins with, the end of input if it is empty. -/
def firstKind (w : List Lexeme) : TokenKind := (w.head?.map Lexeme.kind).getD .endOfInput

@[simp] theorem firstKind_nil : firstKind [] = .endOfInput := rfl

@[simp] theorem firstKind_cons (l : Lexeme) (w : List Lexeme) : firstKind (l :: w) = l.kind := rfl

theorem firstKind_append_of_ne_nil (hu : u ≠ []) : firstKind (u ++ w) = firstKind u := by
  obtain ⟨l, u, rfl⟩ := List.exists_cons_of_ne_nil hu
  rfl

theorem firstKind_append_of_ne (hu : firstKind u ≠ .endOfInput) :
    firstKind (u ++ w) = firstKind u :=
  firstKind_append_of_ne_nil (by
    rintro rfl
    exact hu rfl)

theorem firstKind_newlines {ns : List Lexeme} (hns : ∀ l ∈ ns, l.kind = .newline) :
    firstKind (ns ++ w) = .newline ∨ firstKind (ns ++ w) = firstKind w := by
  cases ns with
  | nil => exact .inr rfl
  | cons l ns => exact .inl (hns l List.mem_cons_self)

theorem Dotted.firstKind_eq {segments : List String} (h : Dotted segments u) :
    firstKind (u ++ w) = .identifier := by
  cases h <;> rfl

theorem Reader.kind_eq (s : Reader) : s.kind = firstKind s.lexemes := by
  rw [Reader.kind, Reader.next_eq, firstKind]
  cases s.lexemes <;> rfl

/-- What a phrase may begin with; the end of input stands for nothing at all. -/
def Phrase.heads : Phrase → TokenKind → Bool
  | .declarations _, kind => kind = .newline || kind = .endOfInput
  | .linesTail _, kind => kind = .newline || kind = .mark .rightBrace
  | .whens _ _, kind => kind = .newline || kind = .keyword .when_ || kind = .keyword .otherwise
  | phrase, kind => phrase.begins kind

theorem Phrase.begins_of_heads {kind : TokenKind} (h : phrase.heads kind) : phrase.begins kind := by
  cases phrase <;> first | exact h | rfl

/-- A phrase that may be empty may begin with anything. -/
theorem Phrase.begins_append (h : phrase.begins (firstKind u)) :
    phrase.begins (firstKind (u ++ w)) := by
  cases u with
  | cons l u => exact h
  | nil =>
    cases phrase with
    | function closure => cases closure <;> cases h
    | _ => first | rfl | cases h

theorem Spells.begins {item : Item} (hgood : ∀ {phrase u}, good phrase u →
    phrase.begins (firstKind u)) (h : Spells good (item :: items) w) :
    item.begins (firstKind w) := by
  cases h with
  | token h => simp [Item.begins]
  | newlines hns h => rfl
  | identifier h => simp [Item.begins]
  | qualified hu h => simp [Item.begins, hu.firstKind_eq]
  | literal hl h => exact hl
  | part hu h => exact Phrase.begins_append (hgood hu)

/-- Phrases begin with what they may begin with. -/
theorem Alternative.heads {naming : Naming} {body : List Item} {kind : Option NodeKind}
    (alt : Alternative naming phrase body kind)
    (hgood : ∀ {phrase u}, good phrase u → phrase.heads (firstKind u))
    (h : Spells good body u) : phrase.heads (firstKind u) := by
  have hbegins : ∀ {phrase u}, good phrase u → phrase.begins (firstKind u) :=
    fun hu => Phrase.begins_of_heads (hgood hu)
  have hfirst (item : Item) (items : List Item) (hbody : body = item :: items) :
      phrase.begins (firstKind u) := by
    subst hbody
    exact alt.begins (h.begins hbegins)
  have hwhens {form : BranchForm} {seen : Bool} {q : Phrase} {items : List Item}
      (h : Spells good (.newlines :: .part q :: items) u)
      (hq : ∀ kind, q.begins kind → kind = .keyword .when_ ∨ kind = .keyword .otherwise) :
      (Phrase.whens form seen).heads (firstKind u) := by
    obtain ⟨ns, w, rfl, hns, h⟩ := Spells.newlines_iff.mp h
    rcases firstKind_newlines (w := w) hns with hk | hk
    · simp [Phrase.heads, hk]
    · rcases hq _ (h.begins hbegins) with hw | hw <;> simp [Phrase.heads, hk, hw]
  cases alt with
  | declarationsEnd =>
    rw [Spells.nil_iff.mp h]
    rfl
  | declarationsNewlines | declarationsImport | declarationsTopLevel =>
    obtain ⟨l, w, rfl, hl, -⟩ := Spells.token_iff.mp h
    simp [Phrase.heads, hl]
  | linesTailEnd | linesTailMore =>
    obtain ⟨l, w, rfl, hl, -⟩ := Spells.token_iff.mp h
    simp [Phrase.heads, hl]
  | whensMore => exact hwhens h fun kind hk => .inl (by simpa [Phrase.begins] using hk)
  | whensLast => exact hwhens h fun kind hk => .inr (by simpa [Phrase.begins] using hk)
  | _ => exact hfirst _ _ rfl

/-! ## What stands behind -/

/-- Whether a kind may stand behind a statement. -/
def TokenKind.ends (kind : TokenKind) : Bool :=
  [.newline, .endOfInput, .mark .rightBrace, .mark .rightParen].contains kind

/-- Whether a kind may stand behind a whole expression. -/
def TokenKind.closes (kind : TokenKind) : Bool :=
  kind.ends || [.mark .comma, .mark .rightBracket, .mark .leftBrace, .keyword .then_,
    .keyword .when_, .keyword .otherwise].contains kind

/-- What may stand behind something, from anything down to the end of input only. -/
inductive Follow where
  | any
  /-- Anything but a point, which would go on with a name. -/
  | name
  | expression
  | statement
  | input
deriving DecidableEq

namespace Follow

def allows : Follow → TokenKind → Bool
  | any, _ => true
  | name, kind => kind ≠ .mark .dot
  | expression, kind => kind.closes
  | statement, kind => kind.ends
  | input, kind => kind = .endOfInput

def width : Follow → Nat
  | any => 4
  | name => 3
  | expression => 2
  | statement => 1
  | input => 0

theorem ends_of_input {kind : TokenKind} (h : input.allows kind) : kind.ends := by
  rw [of_decide_eq_true h]
  rfl

theorem closes_of_ends {kind : TokenKind} (h : kind.ends) : kind.closes := by
  simp [TokenKind.closes, h]

theorem ne_dot_of_closes {kind : TokenKind} (h : kind.closes) : name.allows kind := by
  refine decide_eq_true ?_
  rintro rfl
  cases h

theorem allows_of_width {c c' : Follow} {kind : TokenKind} (hle : c'.width ≤ c.width)
    (h : c'.allows kind) : c.allows kind := by
  cases c <;> cases c' <;> simp only [width] at hle <;>
    first
      | exact h
      | rfl
      | omega
      | exact ne_dot_of_closes h
      | exact closes_of_ends h
      | exact ne_dot_of_closes (closes_of_ends h)
      | exact ends_of_input h
      | exact closes_of_ends (ends_of_input h)
      | exact ne_dot_of_closes (closes_of_ends (ends_of_input h))

end Follow

namespace Phrase

/-- The phrases that are written as operands and operators. -/
def isExpression : Phrase → Bool
  | .expression _ | .operands _ | .unary | .chain | .calls | .primary | .named
  | .function true => true
  | _ => false

/-- What may stand behind a phrase. -/
def follow : Phrase → Follow
  | .compilationUnit | .declarations _ => .input
  | .statement | .return_ | .if_ | .try_ => .statement
  | .topLevel | .functionDeclaration | .function _ | .letOrVar | .assignment | .throw | .when_ _
  | .otherwise _ | .whens .. | .expression _ => .expression
  | .moduleDeclaration | .importDeclaration => .name
  | _ => .any

/-- Whether everything that a phrase may begin with is allowed. -/
def headsAllowed (c : Follow) : Phrase → Bool
  | .block => c.allows (.mark .leftBrace)
  | .linesTail _ => c.allows .newline && c.allows (.mark .rightBrace)
  | .whens .. =>
    c.allows .newline && c.allows (.keyword .when_) && c.allows (.keyword .otherwise)
  | .declarations _ => c.allows .newline && c.allows .endOfInput
  | _ => c = .any

theorem allows_of_headsAllowed {c : Follow} {kind : TokenKind} (h : phrase.headsAllowed c)
    (hkind : phrase.heads kind) : c.allows kind := by
  cases phrase <;>
    simp only [headsAllowed, heads, begins, Bool.and_eq_true, Bool.or_eq_true,
      decide_eq_true_eq] at h hkind
  case block => rwa [hkind]
  case linesTail => rcases hkind with rfl | rfl <;> simp_all
  case whens => rcases hkind with (rfl | rfl) | rfl <;> simp_all
  case declarations => rcases hkind with rfl | rfl <;> simp_all
  all_goals
    subst h
    rfl

end Phrase

namespace Item

/-- Whether everything that items may begin with is allowed, with `tail` behind them. -/
def headsAllowed (c tail : Follow) : List Item → Bool
  | [] => tail.width ≤ c.width
  | .token kind :: _ => c.allows kind
  | .newlines :: items => c.allows .newline && headsAllowed c tail items
  | .identifier _ :: _ | .qualified _ :: _ => c.allows .identifier
  | .literal _ :: _ => c = .any
  | .part phrase :: items =>
    phrase.headsAllowed c && (!phrase.heads .endOfInput || headsAllowed c tail items)

/-- Whether what stands behind line feeds does not begin with one, or takes them all. -/
def stopsNewlines (tail : Follow) : List Item → Bool
  | [] => tail = .input
  | .token kind :: _ => kind ≠ .newline
  | .newlines :: _ => false
  | .identifier _ :: _ | .qualified _ :: _ | .literal _ :: _ | .part (.lines _) :: _ => true
  | .part phrase :: _ => !phrase.heads .newline && !phrase.heads .endOfInput

/-- Whether in a sequence of items each is followed by what may stand behind it. -/
def linked (tail : Follow) : List Item → Bool
  | [] => true
  | .token kind :: items => kind ≠ .endOfInput && linked tail items
  | .newlines :: items => stopsNewlines tail items && linked tail items
  | .identifier _ :: items => linked tail items
  | .qualified _ :: items => headsAllowed .name tail items && linked tail items
  | .literal _ :: _ => false
  | .part phrase :: items => (!phrase.isExpression || phrase = .expression 0) &&
    headsAllowed phrase.follow tail items && linked tail items

end Item

/-- In the table, each phrase is followed by what may stand behind it. -/
theorem Alternative.linked {naming : Naming} {body : List Item} {kind : Option NodeKind}
    (alt : Alternative naming phrase body kind) (hphrase : phrase.isExpression = false) :
    Item.linked phrase.follow body := by
  cases alt with
  | statement hform =>
    simp only [Phrase.statementForms, List.mem_cons, List.not_mem_nil, or_false] at hform
    rcases hform with rfl | rfl | rfl | rfl | rfl | rfl | rfl | rfl | rfl | rfl | rfl <;> rfl
  | linesMore form => cases form <;> rfl
  | functionArrow closure | functionParametersBlock closure | functionParametersArrow closure =>
    cases closure
    · rfl
    · cases hphrase
  | _ => first | rfl | cases hphrase

/-- What a word begins with is allowed if whatever its items may begin with is. -/
theorem Spells.allows {c tail : Follow} (hgood : ∀ {phrase u}, good phrase u →
    phrase.heads (firstKind u)) (h : Spells good items w) (hitems : Item.headsAllowed c tail items)
    (hrest : tail.allows (firstKind rest)) : c.allows (firstKind (w ++ rest)) := by
  induction h with
  | nil => exact Follow.allows_of_width (of_decide_eq_true hitems) hrest
  | token _ _ => exact hitems
  | @newlines ns items w hns _ ih =>
    obtain ⟨hnewline, hitems⟩ := (Bool.and_eq_true _ _).mp hitems
    rw [List.append_assoc]
    rcases firstKind_newlines (w := w ++ rest) hns with hk | hk
    · rwa [hk]
    · rw [hk]
      exact ih hitems
  | identifier _ _ => exact hitems
  | qualified hu _ _ =>
    rw [List.append_assoc, hu.firstKind_eq]
    exact hitems
  | literal _ _ _ =>
    rw [of_decide_eq_true hitems]
    rfl
  | @part phrase items u w hu _ ih =>
    obtain ⟨hphrase, hitems⟩ := (Bool.and_eq_true _ _).mp hitems
    have hheads := hgood hu
    cases u with
    | cons l u => exact Phrase.allows_of_headsAllowed hphrase hheads
    | nil =>
      have hnone : phrase.heads .endOfInput := hheads
      exact ih (by simpa [hnone] using hitems)

end GoloSyntax
