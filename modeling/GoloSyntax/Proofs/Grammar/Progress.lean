import GoloSyntax.Proofs.Grammar.Reads

/-! # What reading amounts to

Reading goes forward: every phrase but the declarations behind the last one reads a
lexeme (`Reads.length_le`).  Most phrases are read as exactly one construct
(`Reads.exists_single`), and most can be told by the lexeme they begin with
(`Reads.begins`).
-/
namespace GoloSyntax

variable {naming : Naming} {n : Nat} {items : List Item} {s r : Reader} {xs : List Construct}

/-! ## How much is read -/

namespace Reader

theorem rest_ne_nil (h : s.kind ≠ .endOfInput) : s.rest ≠ [] := by
  intro hs
  simp [kind, next, hs] at h

theorem length_advance_le (s : Reader) : s.advance.rest.length ≤ s.rest.length := by
  obtain ⟨_ | ⟨p, rest⟩, _, _⟩ := s <;> simp [advance]

theorem length_advance_lt (h : s.kind ≠ .endOfInput) :
    s.advance.rest.length < s.rest.length := by
  obtain ⟨_ | ⟨p, rest⟩, _, _⟩ := s
  · exact absurd rfl (rest_ne_nil h)
  · simp [advance]

theorem length_skipNewlines_le (s : Reader) : s.skipNewlines.rest.length ≤ s.rest.length :=
  (List.dropWhile_suffix _).length_le

end Reader

theorem Qualified.length_lt {segments : List String} (h : Qualified s r segments) :
    r.rest.length < s.rest.length := by
  induction h with
  | last hnext _ => exact Reader.length_advance_lt (by simp [Reader.kind, hnext])
  | @more s _ _ _ hnext _ _ ih =>
    have h₁ := Reader.length_advance_lt (s := s) (by simp [Reader.kind, hnext])
    have h₂ := Reader.length_advance_le s.advance
    omega

/-- Whether an item cannot be read without reading a lexeme. -/
def Item.isSolid : Item → Bool
  | .newlines | .part (.declarations _) => false
  | _ => true

theorem Alternative.any_isSolid {phrase : Phrase} {body : List Item} {kind : Option NodeKind}
    (h : Alternative naming phrase body kind) (hphrase : (Item.part phrase).isSolid) :
    body.any Item.isSolid := by
  cases h with
  | statement hform =>
    simp only [Phrase.statementForms, List.mem_cons, List.not_mem_nil, or_false] at hform
    rcases hform with rfl | rfl | rfl | rfl | rfl | rfl | rfl | rfl | rfl | rfl | rfl <;> rfl
  | linesMore form => cases form <;> rfl
  | _ => first | rfl | cases hphrase

/-- Nothing is read backwards, and something is read for every solid item. -/
theorem Reads.length_le (h : Reads naming n items s r xs) :
    r.rest.length ≤ s.rest.length ∧
      (items.any Item.isSolid → r.rest.length < s.rest.length) := by
  induction h with
  | nil => simp
  | @token _ _ _ s r _ hne hkind h ih =>
    have := Reader.length_advance_lt (s := s) (by rwa [hkind])
    exact ⟨by omega, fun _ => by omega⟩
  | @newlines _ _ s _ _ h ih =>
    have := Reader.length_skipNewlines_le s
    refine ⟨by omega, fun hany => ?_⟩
    have := ih.2 (by simpa [Item.isSolid] using hany)
    omega
  | @identifier _ _ _ s _ _ hnext h ih =>
    have := Reader.length_advance_lt (s := s) (by simp [Reader.kind, hnext])
    exact ⟨by omega, fun _ => by omega⟩
  | qualified hname h ih =>
    have := hname.length_lt
    exact ⟨by omega, fun _ => by omega⟩
  | @literal _ _ _ s _ _ hvalue h ih =>
    have := Reader.length_advance_lt (s := s) (by
      intro hkind
      simp [Lexeme.literal?, show s.next.kind = .endOfInput from hkind] at hvalue)
    exact ⟨by omega, fun _ => by omega⟩
  | part alt hn hsettles hbody h ihbody ih =>
    refine ⟨by omega, fun hany => ?_⟩
    rcases (Bool.or_eq_true _ _).mp hany with hsolid | hrest
    · have := ihbody.2 (alt.any_isSolid hsolid)
      omega
    · have := ih.2 hrest
      omega

theorem Reader.lexemes_of_next {l : Lexeme} (h : s.next = l) (hl : l.kind ≠ .endOfInput) :
    s.lexemes = l :: s.advance.lexemes := by
  obtain ⟨_ | ⟨p, rest⟩, _, _⟩ := s
  · subst h
    exact absurd rfl hl
  · subst h
    rfl

theorem Reader.rest_skipNewlines_suffix (s : Reader) : s.skipNewlines.rest <:+ s.rest :=
  List.dropWhile_suffix _

theorem Reader.rest_advance_suffix (s : Reader) : s.advance.rest <:+ s.rest := by
  obtain ⟨_ | ⟨p, rest⟩, _, _⟩ := s
  · exact List.suffix_rfl
  · exact List.suffix_cons _ _

theorem Qualified.rest_suffix {names : List String} (h : Qualified s r names) :
    r.rest <:+ s.rest := by
  induction h with
  | last => exact Reader.rest_advance_suffix _
  | more _ _ _ ih =>
    exact ih.trans ((Reader.rest_advance_suffix _).trans (Reader.rest_advance_suffix _))

/-- Reading goes on with what is left. -/
theorem Reads.rest_suffix (h : Reads naming n items s r xs) : r.rest <:+ s.rest := by
  induction h with
  | nil => exact List.suffix_rfl
  | token _ _ _ ih | identifier _ _ ih | literal _ _ ih =>
    exact ih.trans (Reader.rest_advance_suffix _)
  | newlines _ ih => exact ih.trans (Reader.rest_skipNewlines_suffix _)
  | qualified hname _ ih => exact ih.trans hname.rest_suffix
  | part _ _ _ _ _ ihbody ih => exact ih.trans ihbody

theorem Reads.lexemes_suffix (h : Reads naming n items s r xs) : r.lexemes <:+ s.lexemes :=
  h.rest_suffix.map _

/-! ## How many constructs are read -/

/-- Whether a phrase is always read as one construct. -/
def Phrase.isSingle : Phrase → Bool
  | .compilationUnit | .declarations _ | .parameterList _ | .parameters _ | .members | .lines _
  | .linesTail _ | .arms _ | .whens _ _ | .arguments | .argumentList | .collection
  | .elements => false
  | _ => true

/-- Whether the number of constructs that an item is read as is known. -/
def Item.isPlain : Item → Bool
  | .part phrase => phrase.isSingle
  | _ => true

def Item.isPart : Item → Bool
  | .part _ => true
  | _ => false

theorem Alternative.all_isPlain {phrase : Phrase} {body : List Item}
    (h : Alternative naming phrase body none) (hphrase : phrase.isSingle) :
    body.all Item.isPlain ∧ body.countP Item.isPart = 1 := by
  cases h with
  | statement hform =>
    simp only [Phrase.statementForms, List.mem_cons, List.not_mem_nil, or_false] at hform
    rcases hform with rfl | rfl | rfl | rfl | rfl | rfl | rfl | rfl | rfl | rfl | rfl <;>
      exact ⟨rfl, rfl⟩
  | _ => first | exact ⟨rfl, rfl⟩ | cases hphrase

/-- Items are read as one construct for every phrase among them. -/
theorem Reads.length_eq (h : Reads naming n items s r xs) (hplain : items.all Item.isPlain) :
    xs.length = items.countP Item.isPart := by
  induction h with
  | nil => rfl
  | token _ _ _ ih | newlines _ ih | identifier _ _ ih | qualified _ _ ih | literal _ _ ih =>
    rw [ih (by simpa [Item.isPlain] using hplain)]
    simp [Item.isPart]
  | @part _ _ phrase body _ kind _ _ _ xs ys alt hn hsettles hbody h ihbody ih =>
    simp only [List.all_cons, Bool.and_eq_true] at hplain
    have hone : ∀ start stop, (wrap kind start stop xs).length = 1 := by
      intro start stop
      cases kind with
      | some kind => rfl
      | none =>
        obtain ⟨hbody, hcount⟩ := alt.all_isPlain hplain.1
        exact (ihbody hbody).trans hcount
    simp [hone, ih hplain.2, List.countP_cons, Item.isPart, Nat.add_comm]

/-- A phrase that is always one construct is read as one. -/
theorem Reads.exists_single {phrase : Phrase} (h : Reads naming n [.part phrase] s r xs)
    (hphrase : phrase.isSingle) : ∃ x, xs = [x] :=
  List.length_eq_one_iff.mp (h.length_eq (by simpa [Item.isPlain] using hphrase))

/-! ## What reading begins with -/

/-- What a primary expression may begin with. -/
def TokenKind.beginsPrimary (kind : TokenKind) : Bool :=
  kind.isLiteral || [.identifier, .keyword .match_, .mark .leftParen, .mark .pipe, .mark .arrow,
    .mark .caret, .mark .leftBracket].contains kind

/-- What an expression may begin with. -/
def TokenKind.beginsExpression (kind : TokenKind) : Bool :=
  (UnaryOperator.ofToken? kind).isSome || kind.beginsPrimary

/-- What a phrase may begin with; nothing is said of the phrases that may begin with a
line feed. -/
def Phrase.begins : Phrase → TokenKind → Bool
  | .moduleDeclaration, kind => kind = .keyword .module_
  | .importDeclaration, kind => kind = .keyword .import_
  | .topLevel, kind => kind = .keyword .function || kind = .keyword .local_ ||
    kind = .keyword .augment || kind = .keyword .struct
  | .functionDeclaration, kind => kind = .keyword .function || kind = .keyword .local_
  | .function closure, kind =>
    kind = .mark .pipe || kind = .mark .arrow || (!closure && kind = .mark .leftBrace)
  | .parameterList _, kind => kind = .mark .pipe
  | .parameters _, kind | .parameter, kind | .member, kind | .assignment, kind | .named, kind =>
    kind = .identifier
  | .augmentation, kind => kind = .keyword .augment
  | .struct, kind => kind = .keyword .struct
  | .block, kind | .arms _, kind => kind = .mark .leftBrace
  | .statement, kind => kind.beginsExpression || [.keyword .let_, .keyword .var,
    .keyword .return_, .keyword .throw, .keyword .if_, .keyword .while_, .keyword .for_,
    .keyword .foreach, .keyword .try_, .keyword .case_, .keyword .break_,
    .keyword .continue_].contains kind
  | .letOrVar, kind => kind = .keyword .let_ || kind = .keyword .var
  | .return_, kind => kind = .keyword .return_
  | .throw, kind => kind = .keyword .throw
  | .if_, kind => kind = .keyword .if_
  | .while_, kind => kind = .keyword .while_
  | .for_, kind => kind = .keyword .for_
  | .forEach, kind => kind = .keyword .foreach
  | .try_, kind => kind = .keyword .try_
  | .catch_, kind => kind = .keyword .catch_
  | .finally_, kind => kind = .keyword .finally_
  | .case_, kind => kind = .keyword .case_
  | .match_, kind => kind = .keyword .match_
  | .when_ _, kind => kind = .keyword .when_
  | .otherwise _, kind => kind = .keyword .otherwise
  | .expression _, kind | .operands _, kind | .unary, kind | .argumentList, kind =>
    kind.beginsExpression
  | .chain, kind | .calls, kind | .primary, kind => kind.beginsPrimary
  | .arguments, kind => kind = .mark .leftParen
  | .collection, kind => kind = .mark .leftBracket
  | .compilationUnit, _ | .declarations _, _ | .members, _ | .lines _, _ | .linesTail _, _
  | .whens _ _, _ | .elements, _ => true

/-- What an item may begin with. -/
def Item.begins : Item → TokenKind → Bool
  | .token kind, kind' => kind' = kind
  | .newlines, _ => true
  | .identifier _, kind | .qualified _, kind => kind = .identifier
  | .literal _, kind => kind.isLiteral
  | .part phrase, kind => phrase.begins kind

theorem Alternative.begins {phrase : Phrase} {item : Item} {body : List Item}
    {kind : Option NodeKind} (h : Alternative naming phrase (item :: body) kind) {k : TokenKind}
    (hk : item.begins k) : phrase.begins k := by
  cases h with
  | statement hform =>
    simp only [Phrase.statementForms, List.mem_cons, List.not_mem_nil, or_false] at hform
    rcases hform with rfl | rfl | rfl | rfl | rfl | rfl | rfl | rfl | rfl | rfl | rfl
    all_goals
      simp only [Item.begins, Phrase.begins, TokenKind.beginsExpression, TokenKind.beginsPrimary,
        Bool.or_eq_true, decide_eq_true_eq, List.contains_cons, List.contains_nil, beq_iff_eq] at hk ⊢
      tauto
  | unary hop =>
    simp only [Item.begins, decide_eq_true_eq] at hk
    subst hk
    simp [Phrase.begins, TokenKind.beginsExpression, hop]
  | _ =>
    first
      | rfl
      | exact hk
      | simp only [Item.begins, decide_eq_true_eq] at hk
        subst hk
        rfl
      | simp only [Item.begins, Phrase.begins, TokenKind.beginsExpression, TokenKind.beginsPrimary,
          Bool.or_eq_true, Bool.and_eq_true, Bool.not_true, Bool.not_false, decide_eq_true_eq,
          List.contains_cons, List.contains_nil, beq_iff_eq] at hk ⊢
        tauto

theorem Lexeme.isLiteral_of_literal? {l : Lexeme} {value : Literal}
    (h : l.literal? = some value) : l.kind.isLiteral := by
  unfold Lexeme.literal? at h
  split at h <;> simp_all [TokenKind.isLiteral]

theorem Reads.begins_head (h : Reads naming n items s r xs) :
    ∀ item ∈ items.head?, item.begins s.kind := by
  induction h with
  | nil => simp
  | token hne hkind h ih => simp [Item.begins, hkind]
  | newlines h ih => simp [Item.begins]
  | identifier hnext h ih => simp [Item.begins, Reader.kind, hnext]
  | qualified hname h ih => cases hname <;> simp_all [Item.begins, Reader.kind]
  | literal hvalue h ih => simpa [Item.begins, Reader.kind] using Lexeme.isLiteral_of_literal? hvalue
  | @part _ _ phrase body _ _ _ _ _ _ _ alt hn hsettles hbody h ihbody ih =>
    simp only [List.head?_cons, Option.mem_some_iff, forall_eq']
    cases body with
    | nil =>
      cases alt
      rfl
    | cons item body => exact alt.begins (ihbody item rfl)

/-- What is read begins with what its first item may begin with. -/
theorem Reads.begins {item : Item} (h : Reads naming n (item :: items) s r xs) :
    item.begins s.kind :=
  h.begins_head item rfl

end GoloSyntax
