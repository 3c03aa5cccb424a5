import GoloSyntax.Proofs.Grammar.Names
import GoloSyntax.Proofs.Grammar.Spelling

/-! # Expressions from left to right

The table writes expressions with operators that bind more or less tightly, and lets a function
behind an arrow be an operand wherever one may stand.  From left to right an expression is much
simpler: operators in front, something to stand on, calls behind it, and then perhaps an operator
and another expression (`Spine`).  Nothing is lost that way: calls and operators behind an
expression can be moved into it (`Spine.append`), into the last function behind an arrow too.

Reading takes a spine apart the other way round.  It stops in front of an operator that binds too
loosely, and what is left is again an operator and a spine (`Spine.reads_expression`), so a whole
expression is read to its end.
-/
namespace GoloSyntax

/-! ## Reading at all -/

/-- The items can be read from one place to another, on some level of nesting. -/
def ReadsTo (items : List Item) (s r : Reader) : Prop := ∃ n xs, Reads .byText n items s r xs

namespace ReadsTo

variable {items body : List Item} {phrase : Phrase} {kind : Option NodeKind} {s s' r : Reader}

theorem nil (s : Reader) : ReadsTo [] s s := ⟨0, [], .nil⟩

theorem token {kind : TokenKind} (hne : kind ≠ .endOfInput) (hkind : s.kind = kind)
    (h : ReadsTo items s.advance r) : ReadsTo (.token kind :: items) s r := by
  obtain ⟨n, xs, h⟩ := h
  exact ⟨n, xs, .token hne hkind h⟩

theorem newlines (h : ReadsTo items s.skipNewlines r) : ReadsTo (.newlines :: items) s r := by
  obtain ⟨n, xs, h⟩ := h
  exact ⟨n, xs, .newlines h⟩

theorem identifier {name : String} (hnext : s.next = ⟨.identifier, some name⟩)
    (h : ReadsTo items s.advance r) : ReadsTo (.identifier name :: items) s r := by
  obtain ⟨n, xs, h⟩ := h
  exact ⟨n, xs, .identifier hnext h⟩

theorem qualified {segments : List String} (hname : Qualified s s' segments)
    (h : ReadsTo items s' r) : ReadsTo (.qualified segments :: items) s r := by
  obtain ⟨n, xs, h⟩ := h
  exact ⟨n, xs, .qualified hname h⟩

theorem cons (h : ReadsTo [.part phrase] s s') (h' : ReadsTo items s' r) :
    ReadsTo (.part phrase :: items) s r := by
  obtain ⟨n, xs, h⟩ := h
  obtain ⟨n', ys, h'⟩ := h'
  exact ⟨max n n', _, reads_part_append.mpr ⟨s', xs, ys, h.mono (Nat.le_max_left _ _),
    h'.mono (Nat.le_max_right _ _), rfl⟩⟩

theorem of_alternative (alt : Alternative .byText phrase body kind) (hsettles : phrase.Settles body s r)
    (h : ReadsTo body s r) : ReadsTo [.part phrase] s r := by
  obtain ⟨n, xs, h⟩ := h
  exact ⟨_, _, reads_phrase_iff.mpr ⟨n, body, kind, xs, alt, rfl, hsettles, h, rfl⟩⟩

end ReadsTo

/-! ## Words in front of a reader -/

/-- The segments of names hold no points. -/
def Segmented (w : List Lexeme) : Prop :=
  ∀ l ∈ w, ∀ name, l = ⟨.identifier, some name⟩ → IsSegment name

theorem Segmented.suffix {v w : List Lexeme} (h : Segmented w) (hv : v <:+ w) : Segmented v :=
  fun l hl => h l (hv.subset hl)

/-- What lexemes must be like to be read: literals have values, the segments of names hold no
points, and no `return` stands directly in front of a closing parenthesis. -/
structure Fair (w : List Lexeme) : Prop where
  literals : ∀ l ∈ w, l.kind.isLiteral → ∃ value, l.literal? = some value
  segments : Segmented w
  returns : ∀ l l', [l, l'] <:+: w → l.kind = .keyword .return_ → l'.kind ≠ .mark .rightParen

theorem Fair.suffix {v w : List Lexeme} (h : Fair w) (hv : v <:+ w) : Fair v where
  literals l hl := h.literals l (hv.subset hl)
  segments := h.segments.suffix hv
  returns l l' hl := h.returns l l' (hl.trans hv.isInfix)

theorem ReadsTo.fair {items : List Item} {s r : Reader} (h : ReadsTo items s r)
    (hfair : Fair s.lexemes) : Fair r.lexemes := by
  obtain ⟨n, xs, h⟩ := h
  exact hfair.suffix h.lexemes_suffix

/-- Wherever the word stands, with something behind it that may follow, the items can be read to
its end. -/
def Readable (items : List Item) (tail : Follow) (w : List Lexeme) : Prop :=
  ∀ (s : Reader) (rest : List Lexeme), s.lexemes = w ++ rest → Fair s.lexemes →
    tail.allows (firstKind rest) → ∃ r, ReadsTo items s r ∧ r.lexemes = rest

namespace Reader

variable {s : Reader} {l : Lexeme} {w rest : List Lexeme}

theorem fair_advance (h : Fair s.lexemes) : Fair s.advance.lexemes :=
  h.suffix ((rest_advance_suffix s).map Piece.lexeme)

theorem fair_skipNewlines (h : Fair s.lexemes) : Fair s.skipNewlines.lexemes :=
  h.suffix ((rest_skipNewlines_suffix s).map Piece.lexeme)

/-- Line feeds are skipped up to what is not one. -/
theorem skipNewlines_lexemes {ns : List Lexeme} (h : s.lexemes = ns ++ w)
    (hns : ∀ l ∈ ns, l.kind = .newline) (hw : firstKind w ≠ .newline) :
    s.skipNewlines.lexemes = w := by
  have hall : ∀ l ∈ ns, decide (l.kind = .newline) = true := fun l hl => decide_eq_true (hns l hl)
  rw [lexemes_skipNewlines, h, List.dropWhile_append_of_pos hall]
  cases w with
  | nil => rfl
  | cons l w => exact List.dropWhile_cons_of_neg (by simpa using hw)

/-- Skipping line feeds may begin behind some of them. -/
theorem skipNewlines_of_lexemes {ns : List Lexeme} (h : s.lexemes = ns ++ w)
    (hns : ∀ l ∈ ns, l.kind = .newline) :
    ∃ s' : Reader, s'.lexemes = w ∧ s'.skipNewlines = s.skipNewlines := by
  obtain ⟨rest, lastEnd, inputEnd⟩ := s
  obtain ⟨front, behind, rfl, hfront, hbehind⟩ := List.map_eq_append_iff.mp h
  refine ⟨⟨behind, lastEnd, inputEnd⟩, hbehind, ?_⟩
  have hall : ∀ p ∈ front, decide (p.lexeme.kind = .newline) = true := fun p hp =>
    decide_eq_true (hns _ (hfront ▸ List.mem_map_of_mem hp))
  simp only [skipNewlines, List.dropWhile_append_of_pos hall]

end Reader

/-- A name in front of what is not a point is read to its end. -/
theorem Dotted.qualified {segments : List String} {u rest : List Lexeme} {s : Reader}
    (h : Dotted segments u) (hs : s.lexemes = u ++ rest) (hrest : firstKind rest ≠ .mark .dot) :
    ∃ r, Qualified s r segments ∧ r.lexemes = rest := by
  induction h generalizing s with
  | last name =>
    have hadvance := Reader.advance_of_lexemes hs
    refine ⟨s.advance, .last (Reader.next_of_lexemes hs) ?_, hadvance⟩
    rintro ⟨hdot, -⟩
    rw [Reader.kind_eq, hadvance] at hdot
    exact hrest hdot
  | more hdot h ih =>
    have hadvance := Reader.advance_of_lexemes hs
    obtain ⟨r, hr, hlexemes⟩ := ih (Reader.advance_of_lexemes hadvance)
    exact ⟨r, .more (Reader.next_of_lexemes hs)
      ((Reader.kind_of_lexemes hadvance).trans hdot) hr, hlexemes⟩

/-! ## Spines -/

/-- Where in an expression a spine begins: in front of an operand or behind one. -/
inductive Place where
  | operand
  | behind

/-- The words that are expressions, or what may go on behind an operand. -/
inductive Spine : Place → List Lexeme → Prop where
  | unary {l : Lexeme} {op : UnaryOperator} {w : List Lexeme}
      (hop : UnaryOperator.ofToken? l.kind = some op) (h : Spine .operand w) :
    Spine .operand (l :: w)
  | arrow {l : Lexeme} {ns w : List Lexeme} (hl : l.kind = .mark .arrow)
      (hns : ∀ l ∈ ns, l.kind = .newline) (h : Spine .operand w) :
    Spine .operand (l :: (ns ++ w))
  | parametersArrow {varargs : Bool} {l : Lexeme} {u ns w : List Lexeme}
      (hu : Readable [.part (.parameterList varargs)] .any u) (hpipe : firstKind u = .mark .pipe)
      (hl : l.kind = .mark .arrow) (hns : ∀ l ∈ ns, l.kind = .newline) (h : Spine .operand w) :
    Spine .operand (u ++ l :: (ns ++ w))
  /-- An operand that does not begin with a name. -/
  | solid {u w : List Lexeme} (hu : Readable [.part .primary] .name u)
      (hbegins : (firstKind u).beginsPrimary) (hname : firstKind u ≠ .identifier)
      (h : Spine .behind w) : Spine .operand (u ++ w)
  | collection {word : String} {u w : List Lexeme}
      (hword : (CollectionKind.ofWord? word).isSome) (hu : Readable [.part .collection] .any u)
      (hbracket : firstKind u = .mark .leftBracket) (h : Spine .behind w) :
    Spine .operand (⟨.identifier, some word⟩ :: (u ++ w))
  | bareName {segments : List String} {kind : NodeKind} {u w : List Lexeme}
      (hu : Dotted segments u) (hkind : Naming.plain segments kind) (h : Spine .behind w) :
    Spine .operand (u ++ w)
  | invocation {segments : List String} {u v w : List Lexeme} (hu : Dotted segments u)
      (hv : Readable [.part .arguments] .any v) (hparen : firstKind v = .mark .leftParen)
      (h : Spine .behind w) : Spine .operand (u ++ (v ++ w))
  | nil : Spine .behind []
  | method {name : String} {l : Lexeme} {u w : List Lexeme} (hl : l.kind = .mark .colon)
      (hu : Readable [.part .arguments] .any u) (hparen : firstKind u = .mark .leftParen)
      (h : Spine .behind w) : Spine .behind (l :: ⟨.identifier, some name⟩ :: (u ++ w))
  | anonymous {u w : List Lexeme} (hu : Readable [.part .arguments] .any u)
      (hparen : firstKind u = .mark .leftParen) (h : Spine .behind w) : Spine .behind (u ++ w)
  | binary {l : Lexeme} {op : BinaryOperator} {ns w : List Lexeme}
      (hop : BinaryOperator.ofToken? l.kind = some op) (hns : ∀ l ∈ ns, l.kind = .newline)
      (h : Spine .operand w) : Spine .behind (l :: (ns ++ w))

namespace Spine

variable {place : Place} {u v w rest : List Lexeme}

/-- What goes on behind an expression goes on behind its last operand. -/
theorem append (hu : Spine place u) (hv : Spine .behind v) : Spine place (u ++ v) := by
  induction hu with
  | unary hop _ ih => exact .unary hop ih
  | arrow hl hns _ ih =>
    rw [List.cons_append, List.append_assoc]
    exact .arrow hl hns ih
  | parametersArrow hu hpipe hl hns _ ih =>
    rw [List.append_assoc, List.cons_append, List.append_assoc]
    exact .parametersArrow hu hpipe hl hns ih
  | solid hu hbegins hname _ ih =>
    rw [List.append_assoc]
    exact .solid hu hbegins hname ih
  | collection hword hu hbracket _ ih =>
    rw [List.cons_append, List.append_assoc]
    exact .collection hword hu hbracket ih
  | bareName hu hkind _ ih =>
    rw [List.append_assoc]
    exact .bareName hu hkind ih
  | invocation hu hv hparen _ ih =>
    rw [List.append_assoc, List.append_assoc]
    exact .invocation hu hv hparen ih
  | nil => exact hv
  | method hl hu hparen _ ih =>
    rw [List.cons_append, List.cons_append, List.append_assoc]
    exact .method hl hu hparen ih
  | anonymous hu hparen _ ih =>
    rw [List.append_assoc]
    exact .anonymous hu hparen ih
  | binary hop hns _ ih =>
    rw [List.cons_append, List.append_assoc]
    exact .binary hop hns ih

theorem begins (h : Spine .operand w) : (firstKind w).beginsExpression := by
  have hprimary {kind : TokenKind} (h : kind.beginsPrimary) : kind.beginsExpression := by
    simp [TokenKind.beginsExpression, h]
  cases h with
  | unary hop h => simp [TokenKind.beginsExpression, hop]
  | arrow hl hns h =>
    rw [firstKind_cons, hl]
    rfl
  | parametersArrow hu hpipe hl hns h =>
    rw [firstKind_append_of_ne (by simp [hpipe]), hpipe]
    rfl
  | solid hu hbegins hname h =>
    rw [firstKind_append_of_ne (by
      rintro hnone
      rw [hnone] at hbegins
      cases hbegins)]
    exact hprimary hbegins
  | collection hword hu hbracket h => rfl
  | bareName hu hkind h | invocation hu hv hparen h =>
    rw [hu.firstKind_eq]
    rfl

theorem firstKind_ne_newline (h : Spine .operand w) (rest : List Lexeme) :
    firstKind (w ++ rest) ≠ .newline := by
  have hbegins := h.begins
  cases w with
  | nil => cases hbegins
  | cons l w =>
    rintro hkind
    rw [List.cons_append, firstKind_cons] at hkind
    rw [firstKind_cons, hkind] at hbegins
    cases hbegins

end Spine

theorem TokenKind.ne_endOfInput_of_beginsPrimary {kind : TokenKind} (h : kind.beginsPrimary) :
    kind ≠ .endOfInput := by
  rintro rfl
  cases h

/-- What may come behind an operand: a call, an operator, or what closes an expression. -/
def TokenKind.goesOn (kind : TokenKind) : Bool :=
  kind.closes || kind = .mark .colon || kind = .mark .leftParen ||
    (BinaryOperator.ofToken? kind).isSome

theorem TokenKind.ne_of_goesOn {kind : TokenKind} (h : kind.goesOn) : kind ≠ .mark .dot ∧
    kind ≠ .mark .leftBracket ∧ kind ≠ .mark .assign := by
  refine ⟨?_, ?_, ?_⟩ <;>
  · rintro rfl
    cases h

theorem TokenKind.ofToken?_of_closes {kind : TokenKind} (h : kind.closes) :
    BinaryOperator.ofToken? kind = none := by
  simp only [closes, ends, Bool.or_eq_true, List.contains_cons, List.contains_nil, beq_iff_eq,
    Bool.or_false] at h
  rcases h with (rfl | rfl | rfl | rfl) | rfl | rfl | rfl | rfl | rfl | rfl <;> rfl

section Reading

variable {u v w rest : List Lexeme} {s s₀ : Reader} {p : Nat}

theorem Spine.goesOn (h : Spine .behind w) (hrest : (firstKind rest).closes) :
    (firstKind (w ++ rest)).goesOn := by
  cases h with
  | nil => simp [TokenKind.goesOn, hrest]
  | method hl hu hparen h =>
    rw [List.cons_append, firstKind_cons, hl]
    rfl
  | anonymous hu hparen h =>
    rw [List.append_assoc, firstKind_append_of_ne (by simp [hparen]), hparen]
    rfl
  | binary hop hns h => simp [TokenKind.goesOn, hop]

/-- What reading stops at behind operands: nothing, or an operator and another expression. -/
inductive Pending : List Lexeme → Prop where
  | none : Pending []
  | operator {l : Lexeme} {op : BinaryOperator} {ns w : List Lexeme}
      (hop : BinaryOperator.ofToken? l.kind = some op) (hns : ∀ l ∈ ns, l.kind = .newline)
      (h : Spine .operand w) : Pending (l :: (ns ++ w))

theorem Pending.not_calls (h : Pending w) (hrest : (firstKind rest).closes) :
    firstKind (w ++ rest) ≠ .mark .colon ∧ firstKind (w ++ rest) ≠ .mark .leftParen := by
  cases h with
  | none =>
    refine ⟨?_, ?_⟩ <;>
    · intro hkind
      rw [List.nil_append] at hkind
      rw [hkind] at hrest
      cases hrest
  | operator hop hns h =>
    refine ⟨?_, ?_⟩ <;>
    · intro hkind
      rw [List.cons_append, firstKind_cons] at hkind
      rw [hkind] at hop
      cases hop

/-- Calls are made as long as there are any. -/
theorem Spine.reads_calls {w : List Lexeme} (h : Spine .behind w) {s : Reader}
    (hcalls : ReadsTo [.part .calls] s₀ s) (hs : s.lexemes = w ++ rest) (hfair : Fair s.lexemes) :
    ∃ r w', ReadsTo [.part .calls] s₀ r ∧ r.lexemes = w' ++ rest ∧ Pending w' ∧
      w'.length ≤ w.length := by
  generalize hplace : Place.behind = place at h
  induction h generalizing s with
  | nil => exact ⟨s, [], hcalls, hs, .none, Nat.le_refl _⟩
  | @method name l u w hl hu hparen h ih =>
    rw [List.cons_append, List.cons_append, List.append_assoc] at hs
    have hname := Reader.advance_of_lexemes hs
    have hfair' := Reader.fair_advance (Reader.fair_advance hfair)
    obtain ⟨s', hs', hlexemes⟩ := hu _ _ (Reader.advance_of_lexemes hname) hfair' rfl
    have hcall : ReadsTo [.part .calls] s₀ s' := .of_alternative (.callsMethod name) trivial <|
      hcalls.cons <| .token (by simp) ((Reader.kind_of_lexemes hs).trans hl) <|
        .identifier (Reader.next_of_lexemes hname) hs'
    obtain ⟨r, w', hr, hw', hpending, hle⟩ := ih hcall hlexemes (hs'.fair hfair') rfl
    exact ⟨r, w', hr, hw', hpending, by simp only [List.length_cons, List.length_append]; omega⟩
  | @anonymous u w hu hparen h ih =>
    rw [List.append_assoc] at hs
    obtain ⟨s', hs', hlexemes⟩ := hu _ _ hs hfair rfl
    have hcall : ReadsTo [.part .calls] s₀ s' :=
      .of_alternative .callsAnonymous trivial (hcalls.cons hs')
    obtain ⟨r, w', hr, hw', hpending, hle⟩ := ih hcall hlexemes (hs'.fair hfair) rfl
    exact ⟨r, w', hr, hw', hpending, by simp only [List.length_append]; omega⟩
  | binary hop hns h => exact ⟨s, _, hcalls, hs, .operator hop hns h, Nat.le_refl _⟩
  | _ => cases hplace

/-- A primary expression with the calls on it is an operand. -/
theorem Spine.reads_unary_of_calls {w : List Lexeme} (h : Spine .behind w) {s : Reader}
    (hcalls : ReadsTo [.part .calls] s₀ s) (hs : s.lexemes = w ++ rest) (hfair : Fair s.lexemes)
    (hrest : (firstKind rest).closes) : ∃ r w', ReadsTo [.part .unary] s₀ r ∧
      r.lexemes = w' ++ rest ∧ Pending w' ∧ w'.length ≤ w.length := by
  obtain ⟨r, w', hr, hlexemes, hpending, hle⟩ := h.reads_calls hcalls hs hfair
  have hchain : ReadsTo [.part .chain] s₀ r := by
    refine .of_alternative .chain ?_ hr
    show r.kind ≠ _ ∧ r.kind ≠ _
    rw [Reader.kind_eq, hlexemes]
    exact hpending.not_calls hrest
  exact ⟨r, w', .of_alternative .unaryChain trivial hchain, hlexemes, hpending, hle⟩

/-- Expressions of some precedence are read up to where operators of less precedence go on. -/
def ReadsUpTo (p : Nat) (w : List Lexeme) : Prop :=
  ∀ (s : Reader) (rest : List Lexeme), s.lexemes = w ++ rest → Fair s.lexemes →
    (firstKind rest).closes → ∃ r w', ReadsTo [.part (.expression p)] s r ∧
      r.lexemes = w' ++ rest ∧ Pending w' ∧ ¬ r.ContinuesOperands p ∧ w'.length < w.length

theorem length_lt_append (hu : firstKind u ≠ .endOfInput) : v.length < (u ++ v).length := by
  obtain ⟨l, u, rfl⟩ := List.exists_cons_of_ne_nil (l := u) (by
    rintro rfl
    exact hu rfl)
  simp only [List.cons_append, List.length_cons, List.length_append]
  omega

/-- Nothing is left of an expression of any precedence. -/
theorem ReadsUpTo.readable (h : ReadsUpTo 0 w) :
    Readable [.part (.expression 0)] .expression w := by
  intro s rest hs hfair hrest
  obtain ⟨r, w', hr, hlexemes, hpending, hstop, -⟩ := h s rest hs hfair hrest
  cases hpending with
  | none => exact ⟨r, hr, hlexemes⟩
  | @operator l op ns v hop hns hv =>
    refine absurd ⟨op, ?_, Nat.zero_le _⟩ hstop
    rwa [Reader.kind_eq, hlexemes]

/-- Operators are read as long as they bind tightly enough. -/
theorem Pending.reads_operands {N : Nat}
    (ih : ∀ v, v.length < N → Spine .operand v → ∀ q, ReadsUpTo q v) {w : List Lexeme}
    (h : Pending w) (hN : w.length ≤ N) {s : Reader} (hoperands : ReadsTo [.part (.operands p)] s₀ s)
    (hs : s.lexemes = w ++ rest) (hfair : Fair s.lexemes) (hrest : (firstKind rest).closes) :
    ∃ r w', ReadsTo [.part (.operands p)] s₀ r ∧ r.lexemes = w' ++ rest ∧ Pending w' ∧
      ¬ r.ContinuesOperands p ∧ w'.length ≤ w.length := by
  induction hlength : w.length using Nat.strong_induction_on generalizing w s with
  | _ k ihk =>
    cases h with
    | none =>
      refine ⟨s, [], hoperands, hs, .none, ?_, Nat.zero_le _⟩
      rintro ⟨op, hop, -⟩
      rw [Reader.kind_eq, hs, List.nil_append, TokenKind.ofToken?_of_closes hrest] at hop
      cases hop
    | @operator l op ns v hop hns hv =>
      by_cases hp : p ≤ op.precedence
      · rw [List.cons_append, List.append_assoc] at hs
        have hskip := Reader.skipNewlines_lexemes (Reader.advance_of_lexemes hs) hns
          (hv.firstKind_ne_newline rest)
        have hfair' := Reader.fair_skipNewlines (Reader.fair_advance hfair)
        simp only [List.length_cons, List.length_append] at hlength hN ⊢
        obtain ⟨s', v', hs', hlexemes, hpending, -, hlt⟩ :=
          ih v (by omega) hv (op.precedence + 1) _ rest hskip hfair' hrest
        have hmore : ReadsTo [.part (.operands p)] s₀ s' :=
          .of_alternative (.operandsMore hop hp) trivial <| hoperands.cons <|
            .token (by rintro hend; rw [hend] at hop; cases hop) (Reader.kind_of_lexemes hs) <|
              .newlines hs'
        obtain ⟨r, w', hr, hw', hpending', hstop, hle⟩ := ihk v'.length (by omega) hpending
          (by omega) hmore hlexemes (hs'.fair hfair') rfl
        exact ⟨r, w', hr, hw', hpending', hstop, by omega⟩
      · refine ⟨s, _, hoperands, hs, .operator hop hns hv, ?_, Nat.le_of_eq hlength⟩
        rintro ⟨op', hop', hp'⟩
        rw [Reader.kind_eq, hs, List.cons_append, firstKind_cons, hop] at hop'
        obtain rfl := Option.some.inj hop'
        exact hp hp'

/-- A function behind an arrow takes everything. -/
theorem reads_unary_of_function (h : ReadsTo [.part (.function true)] s₀ s)
    (hs : (firstKind s.lexemes).closes) : ReadsTo [.part .unary] s₀ s := by
  have hcalls : ReadsTo [.part .calls] s₀ s :=
    .of_alternative .callsFirst trivial (.of_alternative .closure trivial h)
  have hchain : ReadsTo [.part .chain] s₀ s := by
    refine .of_alternative .chain ?_ hcalls
    show s.kind ≠ _ ∧ s.kind ≠ _
    rw [Reader.kind_eq]
    exact Pending.none.not_calls hs
  exact .of_alternative .unaryChain trivial hchain

/-- An arrow, and the expression behind it. -/
theorem reads_arrow {l : Lexeme} {ns : List Lexeme} (hv : Spine .operand v)
    (ih : ReadsUpTo 0 v) (hl : l.kind = .mark .arrow) (hns : ∀ l ∈ ns, l.kind = .newline)
    (hs : s.lexemes = l :: (ns ++ v) ++ rest) (hfair : Fair s.lexemes)
    (hrest : (firstKind rest).closes) : ∃ r,
      ReadsTo [.sign .arrow, .newlines, .part (.expression 0)] s r ∧ r.lexemes = rest := by
  rw [List.cons_append, List.append_assoc] at hs
  have hskip := Reader.skipNewlines_lexemes (Reader.advance_of_lexemes hs) hns
    (hv.firstKind_ne_newline rest)
  have hfair' := Reader.fair_skipNewlines (Reader.fair_advance hfair)
  obtain ⟨r, hr, hlexemes⟩ := ih.readable _ rest hskip hfair' hrest
  exact ⟨r, .token (by simp) ((Reader.kind_of_lexemes hs).trans hl) (.newlines hr), hlexemes⟩

theorem Dotted.of_segments {segments : List String} (h : Dotted segments u) :
    segments ≠ [] ∧ ∀ name ∈ segments, ⟨.identifier, some name⟩ ∈ u := by
  induction h with
  | last name => simp
  | more hdot h ih =>
    refine ⟨by simp, fun name hname => ?_⟩
    rcases List.mem_cons.mp hname with rfl | hname
    · exact List.mem_cons_self
    · exact List.mem_cons_of_mem _ (List.mem_cons_of_mem _ (ih.2 name hname))

theorem Dotted.firstKind_ne {segments : List String} (h : Dotted segments u) :
    firstKind u ≠ .endOfInput := by
  cases h <;> simp

/-- A name does not begin a collection. -/
theorem Dotted.not_beginsCollection {segments : List String} (h : Dotted segments u)
    (hs : s.lexemes = u ++ rest) (hrest : firstKind rest ≠ .mark .leftBracket) :
    ¬ s.BeginsCollection := by
  rintro ⟨-, -, hbehind⟩
  rw [Reader.kindBehind_eq, hs] at hbehind
  cases h with
  | last name => exact hrest hbehind
  | more hdot h => exact absurd (hdot.symm.trans hbehind) (by simp)

/-- A name with arguments behind it is called. -/
theorem Dotted.reads_invocation {segments : List String} (hu : Dotted segments u)
    (hv : Readable [.part .arguments] .any v) (hparen : firstKind v = .mark .leftParen)
    (hs : s.lexemes = u ++ (v ++ w)) (hfair : Fair s.lexemes) :
    ∃ r, ReadsTo [.part .calls] s r ∧ r.lexemes = w := by
  have hfirst : firstKind (v ++ w) = .mark .leftParen := by
    rw [firstKind_append_of_ne (by simp [hparen]), hparen]
  obtain ⟨s', hname, hs'⟩ := hu.qualified hs (by simp [hfirst])
  have hfair' : Fair s'.lexemes := hfair.suffix (hname.rest_suffix.map Piece.lexeme)
  obtain ⟨r, hr, hlexemes⟩ := hv s' w hs' hfair' rfl
  have hnamed : ReadsTo [.part .named] s r :=
    .of_alternative (.invocation segments) trivial (.qualified hname hr)
  have hprimary : ReadsTo [.part .primary] s r :=
    .of_alternative .named (hu.not_beginsCollection hs (by simp [hfirst])) hnamed
  exact ⟨r, .of_alternative .callsFirst trivial hprimary, hlexemes⟩

theorem Dotted.reads_bareName {segments : List String} {kind : NodeKind} (hu : Dotted segments u)
    (hkind : Naming.plain segments kind) (hs : s.lexemes = u ++ w) (hfair : Fair s.lexemes)
    (hw : (firstKind w).goesOn) (hparen : firstKind w ≠ .mark .leftParen) :
    ∃ r, ReadsTo [.part .calls] s r ∧ r.lexemes = w := by
  obtain ⟨hdot, hbracket, -⟩ := TokenKind.ne_of_goesOn hw
  obtain ⟨r, hname, hr⟩ := hu.qualified hs hdot
  obtain ⟨hne, hmem⟩ := hu.of_segments
  have hsegments : ∀ name ∈ segments, IsSegment name := fun name hmem' =>
    hfair.segments _ (hs ▸ List.mem_append_left _ (hmem name hmem')) name rfl
  have hnamed : ReadsTo [.part .named] s r := by
    refine .of_alternative (.bareName ((byText_iff_plain hne hsegments).mpr hkind)) ?_
      (.qualified hname (.nil r))
    show r.kind ≠ _
    rwa [Reader.kind_eq, hr]
  have hprimary : ReadsTo [.part .primary] s r :=
    .of_alternative .named (hu.not_beginsCollection hs hbracket) hnamed
  exact ⟨r, .of_alternative .callsFirst trivial hprimary, hr⟩

/-- A parenthesis behind an operand begins arguments. -/
theorem Spine.exists_arguments (h : Spine .behind w)
    (hparen : firstKind (w ++ rest) = .mark .leftParen) (hrest : (firstKind rest).closes) :
    ∃ u v, w = u ++ v ∧ Readable [.part .arguments] .any u ∧ firstKind u = .mark .leftParen ∧
      Spine .behind v := by
  cases h with
  | anonymous hu hfirst hv => exact ⟨_, _, rfl, hu, hfirst, hv⟩
  | nil =>
    rw [List.nil_append] at hparen
    rw [hparen] at hrest
    cases hrest
  | method hl hu hfirst hv =>
    rw [List.cons_append, firstKind_cons, hl] at hparen
    cases hparen
  | binary hop hns hv =>
    rw [List.cons_append, firstKind_cons] at hparen
    rw [hparen] at hop
    cases hop

/-- What stands at the beginning of a spine is read, up to an operator or the end. -/
theorem Spine.reads_unary (ih : ∀ v, v.length < w.length → Spine .operand v → ∀ q, ReadsUpTo q v)
    (h : Spine .operand w) (hs : s.lexemes = w ++ rest) (hfair : Fair s.lexemes)
    (hrest : (firstKind rest).closes) : ∃ r w', ReadsTo [.part .unary] s r ∧
      r.lexemes = w' ++ rest ∧ Pending w' ∧ w'.length < w.length := by
  have hcalls {s' : Reader} {v : List Lexeme} (hv : Spine .behind v)
      (hcalls : ReadsTo [.part .calls] s s') (hs' : s'.lexemes = v ++ rest)
      (hlt : v.length < w.length) : ∃ r w', ReadsTo [.part .unary] s r ∧
        r.lexemes = w' ++ rest ∧ Pending w' ∧ w'.length < w.length := by
    obtain ⟨r, w', hr, hlexemes, hpending, hle⟩ :=
      hv.reads_unary_of_calls hcalls hs' (hcalls.fair hfair) hrest
    exact ⟨r, w', hr, hlexemes, hpending, by omega⟩
  cases h with
  | @unary l op v hop hv =>
    obtain ⟨r, w', hr, hlexemes, hpending, -, hlt⟩ := ih v (Nat.lt_succ_self _) hv
      UnaryOperator.precedence _ rest (Reader.advance_of_lexemes hs) (Reader.fair_advance hfair) hrest
    have hunary : ReadsTo [.part .unary] s r := .of_alternative (.unary hop) trivial <|
      .token (by rintro hend; rw [hend] at hop; cases hop) (Reader.kind_of_lexemes hs) hr
    exact ⟨r, w', hunary, hlexemes, hpending, by simp only [List.length_cons]; omega⟩
  | @arrow l ns v hl hns hv =>
    have hlt : v.length < (l :: (ns ++ v)).length := by
      simp only [List.length_cons, List.length_append]
      omega
    obtain ⟨r, hr, hlexemes⟩ := reads_arrow hv (ih v hlt hv 0) hl hns hs hfair hrest
    have hfunction : ReadsTo [.part (.function true)] s r :=
      .of_alternative (.functionArrow true) trivial hr
    exact ⟨r, [], reads_unary_of_function hfunction (hlexemes ▸ hrest), hlexemes, .none,
      Nat.zero_lt_of_lt hlt⟩
  | @parametersArrow varargs l u ns v hu hpipe hl hns hv =>
    have hlt : v.length < (u ++ l :: (ns ++ v)).length := by
      simp only [List.length_cons, List.length_append]
      omega
    rw [List.append_assoc] at hs
    obtain ⟨s', hs', hlexemes'⟩ := hu s _ hs hfair rfl
    obtain ⟨r, hr, hlexemes⟩ :=
      reads_arrow hv (ih v hlt hv 0) hl hns hlexemes' (hs'.fair hfair) hrest
    have hfunction : ReadsTo [.part (.function true)] s r :=
      .of_alternative (.functionParametersArrow true varargs) trivial (hs'.cons hr)
    exact ⟨r, [], reads_unary_of_function hfunction (hlexemes ▸ hrest), hlexemes, .none,
      Nat.zero_lt_of_lt hlt⟩
  | @solid u v hu hbegins hname hv =>
    rw [List.append_assoc] at hs
    obtain ⟨s', hs', hlexemes⟩ := hu s _ hs hfair
      (decide_eq_true (TokenKind.ne_of_goesOn (hv.goesOn hrest)).1)
    exact hcalls hv (.of_alternative .callsFirst trivial hs') hlexemes
      (length_lt_append (TokenKind.ne_endOfInput_of_beginsPrimary hbegins))
  | @collection word u v hword hu hbracket hv =>
    rw [List.cons_append, List.append_assoc] at hs
    obtain ⟨type, htype⟩ := Option.isSome_iff_exists.mp hword
    obtain ⟨s', hs', hlexemes⟩ := hu _ _ (Reader.advance_of_lexemes hs) (Reader.fair_advance hfair) rfl
    have hprimary : ReadsTo [.part .primary] s s' :=
      .of_alternative (.collectionWord htype) trivial (.identifier (Reader.next_of_lexemes hs) hs')
    refine hcalls hv (.of_alternative .callsFirst trivial hprimary) hlexemes ?_
    simp only [List.length_cons, List.length_append]
    omega
  | @bareName segments kind u v hu hkind hv =>
    have hlt : v.length < (u ++ v).length := length_lt_append hu.firstKind_ne
    rw [List.append_assoc] at hs
    by_cases hparen : firstKind (v ++ rest) = .mark .leftParen
    · obtain ⟨v₁, v₂, rfl, hv₁, hparen₁, hv₂⟩ := hv.exists_arguments hparen hrest
      rw [List.append_assoc] at hs
      obtain ⟨s', hs', hlexemes⟩ := hu.reads_invocation hv₁ hparen₁ hs hfair
      refine hcalls hv₂ hs' hlexemes (Nat.lt_of_le_of_lt ?_ hlt)
      simp only [List.length_append]
      omega
    · obtain ⟨s', hs', hlexemes⟩ := hu.reads_bareName hkind hs hfair (hv.goesOn hrest) hparen
      exact hcalls hv hs' hlexemes hlt
  | @invocation segments u v v' hu hv hparen hv' =>
    rw [List.append_assoc, List.append_assoc] at hs
    obtain ⟨s', hs', hlexemes⟩ := hu.reads_invocation hv hparen hs hfair
    refine hcalls hv' hs' hlexemes (Nat.lt_of_le_of_lt ?_ (length_lt_append hu.firstKind_ne))
    simp only [List.length_append]
    omega

/-- Every expression is read, as far as its operators bind tightly enough. -/
theorem Spine.readsUpTo (h : Spine .operand w) (p : Nat) : ReadsUpTo p w := by
  induction hlength : w.length using Nat.strong_induction_on generalizing w p with
  | _ k ih =>
    subst hlength
    have ih' (v : List Lexeme) (hv : v.length < w.length) (hspine : Spine .operand v) (q : Nat) :
        ReadsUpTo q v := ih v.length hv hspine q rfl
    intro s rest hs hfair hrest
    obtain ⟨s', v, hunary, hlexemes, hpending, hlt⟩ := h.reads_unary ih' hs hfair hrest
    have hfirst : ReadsTo [.part (.operands p)] s s' :=
      .of_alternative (.operandsFirst p) trivial hunary
    obtain ⟨r, w', hr, hw', hpending', hstop, hle⟩ := hpending.reads_operands ih'
      (Nat.le_of_lt hlt) hfirst hlexemes (hunary.fair hfair) hrest
    exact ⟨r, w', .of_alternative (.expression p) hstop hr, hw', hpending', hstop, by omega⟩

end Reading

end GoloSyntax
