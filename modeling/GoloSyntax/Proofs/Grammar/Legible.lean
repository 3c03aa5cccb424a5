import GoloSyntax.Proofs.Grammar.Spine

/-! # Every sentence can be read

Reading decides by one or two lexemes what to do.  It never decides wrongly: where the table
derives a word, the word is read to its end, whatever stands behind it that may
(`Sentence.readable`).  `Legible` is what the induction over the derivation carries: a phrase
outside expressions can be read, and the word of an expression is a spine, because its last
function behind an arrow may take in more than the derivation gave it.

There is one exception, which `Fair` excludes: `return` in front of a closing parenthesis is read
as if a value had to follow.
-/
namespace GoloSyntax

/-- What is carried from the parts of an alternative to its phrase. -/
structure Legible (phrase : Phrase) (u : List Lexeme) : Prop where
  heads : phrase.heads (firstKind u)
  readable : phrase.isExpression = false → Readable [.part phrase] phrase.follow u
  spine : phrase.isExpression → Spine .operand u

variable {items body : List Item} {tail : Follow} {phrase : Phrase} {kind : Option NodeKind}
  {u w rest : List Lexeme} {s r : Reader}

/-! ## Items -/

/-- Lines are read the same behind the line feeds in front of them. -/
theorem ReadsTo.skip_lines {form : LineForm} (h : ReadsTo (.part (.lines form) :: items) s r) :
    ReadsTo (.part (.lines form) :: items) s.skipNewlines r := by
  obtain ⟨n, zs, h⟩ := h
  obtain ⟨s', xs, ys, hlines, hitems, rfl⟩ := reads_part_append.mp h
  rw [reads_lines_iff, ← Reader.skipNewlines_skipNewlines, ← reads_lines_iff] at hlines
  exact ⟨n, _, reads_part_append.mpr ⟨s', xs, ys, hlines, hitems, rfl⟩⟩

theorem Legible.readable_of_linked (h : Legible phrase u)
    (hphrase : !phrase.isExpression || phrase = .expression 0) :
    Readable [.part phrase] phrase.follow u := by
  cases hexpression : phrase.isExpression with
  | false => exact h.readable hexpression
  | true =>
    obtain rfl : phrase = .expression 0 := by simpa [hexpression] using hphrase
    exact ((h.spine hexpression).readsUpTo 0).readable

/-- What stands behind line feeds does not begin with one, unless it is lines. -/
theorem Spells.firstKind_ne_newline (h : Spells Legible items w)
    (hstops : Item.stopsNewlines tail items)
    (hlines : ∀ form items', items ≠ .part (.lines form) :: items')
    (hrest : tail.allows (firstKind rest)) : firstKind (w ++ rest) ≠ .newline := by
  cases h with
  | nil =>
    obtain rfl := of_decide_eq_true hstops
    rw [List.nil_append, of_decide_eq_true hrest]
    simp
  | token _ => exact of_decide_eq_true hstops
  | newlines _ _ => cases hstops
  | identifier _ => simp
  | qualified hu _ => simp [List.append_assoc, hu.firstKind_eq]
  | literal hl _ =>
    rintro hkind
    rw [List.cons_append, firstKind_cons] at hkind
    rw [hkind] at hl
    cases hl
  | @part phrase items u w hu _ =>
    have hheads : phrase.heads .newline = false ∧ phrase.heads .endOfInput = false := by
      cases phrase with
      | lines form => exact absurd rfl (hlines form items)
      | _ => simpa [Item.stopsNewlines] using hstops
    have hfirst := hu.heads
    rw [List.append_assoc, firstKind_append_of_ne]
    · rintro hkind
      rw [hkind, hheads.1] at hfirst
      cases hfirst
    · rintro hkind
      rw [hkind, hheads.2] at hfirst
      cases hfirst

/-- Items that may stand next to each other are read one after the other. -/
theorem Spells.readable (h : Spells Legible items w) (hlinked : Item.linked tail items) :
    Readable items tail w := by
  intro s rest hs hfair hrest
  induction h generalizing s with
  | nil => exact ⟨s, .nil s, hs⟩
  | @token l items w h ih =>
    simp only [Item.linked, Bool.and_eq_true, decide_eq_true_eq] at hlinked
    obtain ⟨r, hr, hlexemes⟩ := ih hlinked.2 s.advance (Reader.advance_of_lexemes hs)
      (Reader.fair_advance hfair)
    exact ⟨r, .token hlinked.1 (Reader.kind_of_lexemes hs) hr, hlexemes⟩
  | @newlines ns items w hns h ih =>
    simp only [Item.linked, Bool.and_eq_true] at hlinked
    rw [List.append_assoc] at hs
    obtain ⟨s', hs', hskip⟩ := Reader.skipNewlines_of_lexemes hs hns
    have hfair' : Fair s'.lexemes := hfair.suffix (hs ▸ hs' ▸ List.suffix_append _ _)
    obtain ⟨r, hr, hlexemes⟩ := ih hlinked.2 s' hs' hfair'
    refine ⟨r, .newlines (hskip ▸ ?_), hlexemes⟩
    by_cases hlines : ∃ form items', items = .part (.lines form) :: items'
    · obtain ⟨form, items', rfl⟩ := hlines
      exact hr.skip_lines
    · have hne := h.firstKind_ne_newline hlinked.1
        (fun form items' heq => hlines ⟨form, items', heq⟩) hrest
      rwa [Reader.skipNewlines_of_kind_ne (by rwa [Reader.kind_eq, hs'])]
  | @identifier name items w h ih =>
    obtain ⟨r, hr, hlexemes⟩ := ih hlinked s.advance (Reader.advance_of_lexemes hs)
      (Reader.fair_advance hfair)
    exact ⟨r, .identifier (Reader.next_of_lexemes hs) hr, hlexemes⟩
  | @qualified segments items u w hu h ih =>
    simp only [Item.linked, Bool.and_eq_true] at hlinked
    rw [List.append_assoc] at hs
    have hdot := h.allows (fun hu => hu.heads) hlinked.1 hrest
    obtain ⟨s', hname, hs'⟩ := hu.qualified hs (of_decide_eq_true hdot)
    obtain ⟨r, hr, hlexemes⟩ := ih hlinked.2 s' hs'
      (hfair.suffix (hname.rest_suffix.map Piece.lexeme))
    exact ⟨r, .qualified hname hr, hlexemes⟩
  | literal => cases hlinked
  | @part phrase items u w hu h ih =>
    simp only [Item.linked, Bool.and_eq_true] at hlinked
    rw [List.append_assoc] at hs
    have hfollow := h.allows (fun hu => hu.heads) hlinked.1.2 hrest
    obtain ⟨s', hs', hlexemes'⟩ := hu.readable_of_linked hlinked.1.1 s _ hs hfair hfollow
    obtain ⟨r, hr, hlexemes⟩ := ih hlinked.2 s' hlexemes' (hs'.fair hfair)
    exact ⟨r, hs'.cons hr, hlexemes⟩

/-! ## Alternatives -/

/-- A spine is not the beginning of an assignment. -/
theorem Spine.not_assignment (h : Spine .operand w) (hs : s.lexemes = w ++ rest)
    (hrest : (firstKind rest).closes) :
    ¬ (s.kind = .identifier ∧ s.kindBehind = .mark .assign) := by
  rintro ⟨hkind, hbehind⟩
  rw [Reader.kind_eq, hs] at hkind
  rw [Reader.kindBehind_eq, hs] at hbehind
  have hdotted {segments : List String} {u v : List Lexeme} (hu : Dotted segments u)
      (hv : (firstKind v).goesOn) (hbehind : firstKind ((u ++ v).drop 1) = .mark .assign) :
      False := by
    cases hu with
    | last name => exact (TokenKind.ne_of_goesOn hv).2.2 hbehind
    | more hdot h => exact absurd (hdot.symm.trans hbehind) (by simp)
  cases h with
  | unary hop h =>
    rw [List.cons_append, firstKind_cons] at hkind
    rw [hkind] at hop
    cases hop
  | arrow hl hns h =>
    rw [List.cons_append, firstKind_cons, hl] at hkind
    cases hkind
  | parametersArrow hu hpipe hl hns h =>
    rw [List.append_assoc, firstKind_append_of_ne (by simp [hpipe]), hpipe] at hkind
    cases hkind
  | solid hu hbegins hname h =>
    rw [List.append_assoc,
      firstKind_append_of_ne (TokenKind.ne_endOfInput_of_beginsPrimary hbegins)] at hkind
    exact hname hkind
  | @collection word u v hword hu hbracket h =>
    have hfirst : firstKind (u ++ v ++ rest) = .mark .assign := hbehind
    rw [List.append_assoc, firstKind_append_of_ne (by simp [hbracket]), hbracket] at hfirst
    cases hfirst
  | bareName hu hkind' h =>
    rw [List.append_assoc] at hbehind
    exact hdotted hu (h.goesOn hrest) hbehind
  | invocation hu hv hparen h =>
    rw [List.append_assoc, List.append_assoc] at hbehind
    refine hdotted hu ?_ hbehind
    rw [firstKind_append_of_ne (by simp [hparen]), hparen]
    rfl

/-- The alternative that a word was derived by is the one that is taken. -/
theorem Alternative.settles {naming : Naming} (alt : Alternative naming phrase body kind)
    (hphrase : phrase.isExpression = false) (hu : Spells Legible body u)
    (hs : s.lexemes = u ++ r.lexemes) (hfair : Fair s.lexemes) (hr : phrase.follow.allows r.kind) :
    phrase.Settles body s r := by
  have hne {k : TokenKind} (h : r.kind.ends) (hk : k.ends = false) : r.kind ≠ k := by
    rintro rfl
    rw [hk] at h
    cases h
  cases alt with
  | declarationsEnd | declarationsNewlines =>
    have hend : r.kind = .endOfInput := of_decide_eq_true hr
    exact hend
  | statement hform =>
    simp only [Phrase.statementForms, List.mem_cons, List.not_mem_nil, or_false] at hform
    rcases hform with rfl | rfl | rfl | rfl | rfl | rfl | rfl | rfl | rfl | rfl | rfl <;>
      try trivial
    have hspine := (Spells.single_iff.mp hu).spine rfl
    exact hspine.not_assignment hs (Follow.closes_of_ends (Reader.kind_eq r ▸ hr))
  | returnVoid =>
    obtain ⟨l, w, rfl, hl, hw⟩ := Spells.token_iff.mp hu
    obtain rfl := Spells.nil_iff.mp hw
    have hparen : r.kind ≠ .mark .rightParen := by
      intro hparen
      have hnext := Reader.lexemes_of_next (s := r) rfl fun hend =>
        absurd (hparen.symm.trans hend) (by simp)
      refine hfair.returns l r.next ?_ hl hparen
      rw [hs, hnext]
      exact ⟨[], r.advance.lexemes, rfl⟩
    have hends : r.kind.ends := hr
    simp only [TokenKind.ends, List.contains_cons, List.contains_nil, Bool.or_eq_true, beq_iff_eq,
      Bool.or_false] at hends
    show r.kind = _ ∨ r.kind = _ ∨ r.kind = _
    tauto
  | if_ => exact hne hr rfl
  | tryCatch => exact hne hr rfl
  | _ => trivial

/-- What does not begin a call depends on names only where names are. -/
theorem Alternative.rename {naming naming' : Naming} (alt : Alternative naming phrase body kind)
    (hphrase : phrase ≠ .named) : Alternative naming' phrase body kind := by
  cases alt <;> first | constructor <;> assumption | exact absurd rfl hphrase

/-- What is derived outside expressions can be read. -/
theorem Alternative.readable {naming : Naming} (alt : Alternative naming phrase body kind)
    (hphrase : phrase.isExpression = false) (hu : Spells Legible body u) :
    Readable [.part phrase] phrase.follow u := by
  intro s rest hs hfair hrest
  obtain ⟨r, hr, rfl⟩ := hu.readable (alt.linked hphrase) s rest hs hfair hrest
  have hnamed : phrase ≠ .named := by
    rintro rfl
    cases hphrase
  refine ⟨r, .of_alternative (alt.rename hnamed) (alt.settles hphrase hu hs hfair ?_) hr, rfl⟩
  rwa [Reader.kind_eq]

theorem Legible.arguments (h : Legible .arguments u) :
    Readable [.part .arguments] .any u ∧ firstKind u = .mark .leftParen :=
  ⟨h.readable rfl, of_decide_eq_true h.heads⟩

/-- What stands in front of calls and does not begin with a name. -/
theorem Spells.spine_of_primary {k : TokenKind} (hu : Spells Legible body u)
    (hlinked : Item.linked .name body)
    (hprimary : ∀ {s r}, ReadsTo body s r → ReadsTo [.part .primary] s r)
    (hfirst : firstKind u = k) (hk : k.beginsPrimary ∧ k ≠ .identifier) : Spine .operand u := by
  have hreadable : Readable [.part .primary] .name u := by
    intro s rest hs hfair hrest
    obtain ⟨r, hr, hlexemes⟩ := hu.readable hlinked s rest hs hfair hrest
    exact ⟨r, hprimary hr, hlexemes⟩
  have hspine := Spine.solid hreadable (hfirst ▸ hk.1) (hfirst ▸ hk.2) .nil
  rwa [List.append_nil] at hspine

/-- A literal has a value where the words are fair. -/
theorem spine_of_literal {l : Lexeme} (hl : l.kind.isLiteral) : Spine .operand [l] := by
  have hreadable : Readable [.part .primary] .name [l] := by
    intro s rest hs hfair hrest
    obtain ⟨value, hvalue⟩ := hfair.literals l (hs ▸ List.mem_cons_self) hl
    have hnext : s.next.literal? = some value := by rwa [Reader.next_of_lexemes hs]
    exact ⟨s.advance, .of_alternative (.literal value) trivial ⟨0, [], .literal hnext .nil⟩,
      Reader.advance_of_lexemes hs⟩
  have hbegins : l.kind.beginsPrimary := by simp [TokenKind.beginsPrimary, hl]
  refine Spine.solid hreadable hbegins ?_ .nil
  intro hname
  rw [show l.kind = .identifier from hname] at hl
  cases hl

theorem Spells.firstKind_of_token {k : TokenKind} (hu : Spells Legible (.token k :: body) u) :
    firstKind u = k := by
  obtain ⟨l, w, rfl, rfl, -⟩ := Spells.token_iff.mp hu
  rfl

/-- What is derived inside expressions is a spine. -/
theorem Alternative.spine (alt : Alternative .plain phrase body kind)
    (hphrase : phrase.isExpression) (hu : Spells Legible body u) : Spine .operand u := by
  cases alt with
  | expression | operandsFirst | unaryChain | chain | callsFirst | closure | named =>
    exact (Spells.single_iff.mp hu).spine rfl
  | operandsMore hop hmin =>
    obtain ⟨u₁, u₂, rfl, hu₁, hu₂⟩ := Spells.part_iff.mp hu
    obtain ⟨l, u₃, rfl, rfl, hu₃⟩ := Spells.token_iff.mp hu₂
    obtain ⟨ns, v, rfl, hns, hv⟩ := Spells.newlines_iff.mp hu₃
    exact (hu₁.spine rfl).append (.binary hop hns ((Spells.single_iff.mp hv).spine rfl))
  | unary hop =>
    obtain ⟨l, v, rfl, rfl, hv⟩ := Spells.token_iff.mp hu
    exact .unary hop ((Spells.single_iff.mp hv).spine rfl)
  | callsMethod name =>
    obtain ⟨u₁, u₂, rfl, hu₁, hu₂⟩ := Spells.part_iff.mp hu
    obtain ⟨l, u₃, rfl, hl, hu₃⟩ := Spells.token_iff.mp hu₂
    obtain ⟨v, rfl, hv⟩ := Spells.identifier_iff.mp hu₃
    obtain ⟨hv, hparen⟩ := (Spells.single_iff.mp hv).arguments
    have hcall : Spine .behind (l :: ⟨.identifier, some name⟩ :: (v ++ [])) :=
      .method hl hv hparen .nil
    rw [List.append_nil] at hcall
    exact (hu₁.spine rfl).append hcall
  | callsAnonymous =>
    obtain ⟨u₁, v, rfl, hu₁, hv⟩ := Spells.part_iff.mp hu
    obtain ⟨hv, hparen⟩ := (Spells.single_iff.mp hv).arguments
    have hcall : Spine .behind (v ++ []) := .anonymous hv hparen .nil
    rw [List.append_nil] at hcall
    exact (hu₁.spine rfl).append hcall
  | literal value =>
    obtain ⟨l, rfl, hl⟩ := Spells.literal_iff.mp hu
    exact spine_of_literal hl
  | grouping =>
    exact hu.spine_of_primary rfl (.of_alternative .grouping trivial) hu.firstKind_of_token
      ⟨rfl, by simp⟩
  | functionArrow closure =>
    obtain ⟨l, u₁, rfl, hl, hu₁⟩ := Spells.token_iff.mp hu
    obtain ⟨ns, v, rfl, hns, hv⟩ := Spells.newlines_iff.mp hu₁
    exact .arrow hl hns ((Spells.single_iff.mp hv).spine rfl)
  | functionParametersBlock closure varargs =>
    obtain rfl : closure = true := by cases closure <;> first | rfl | cases hphrase
    obtain ⟨u₁, u₂, rfl, hu₁, -⟩ := Spells.part_iff.mp hu
    have hpipe : firstKind u₁ = .mark .pipe := of_decide_eq_true hu₁.heads
    have hfirst : firstKind (u₁ ++ u₂) = .mark .pipe := by
      rw [firstKind_append_of_ne (by simp [hpipe]), hpipe]
    exact hu.spine_of_primary rfl (fun h => .of_alternative .closure trivial
      (.of_alternative (.functionParametersBlock true varargs) trivial h)) hfirst ⟨rfl, by simp⟩
  | functionParametersArrow closure varargs =>
    obtain ⟨u₁, u₂, rfl, hu₁, hu₂⟩ := Spells.part_iff.mp hu
    obtain ⟨l, u₃, rfl, hl, hu₃⟩ := Spells.token_iff.mp hu₂
    obtain ⟨ns, v, rfl, hns, hv⟩ := Spells.newlines_iff.mp hu₃
    exact .parametersArrow (hu₁.readable rfl) (of_decide_eq_true hu₁.heads) hl hns
      ((Spells.single_iff.mp hv).spine rfl)
  | functionRef segments =>
    exact hu.spine_of_primary rfl (.of_alternative (.functionRef segments) trivial)
      hu.firstKind_of_token ⟨rfl, by simp⟩
  | matchPrimary =>
    exact hu.spine_of_primary rfl (.of_alternative .matchPrimary trivial)
      (of_decide_eq_true (Spells.single_iff.mp hu).heads) ⟨rfl, by simp⟩
  | tuple =>
    exact hu.spine_of_primary rfl (.of_alternative .tuple trivial)
      (of_decide_eq_true (Spells.single_iff.mp hu).heads) ⟨rfl, by simp⟩
  | collectionWord hword =>
    obtain ⟨v, rfl, hv⟩ := Spells.identifier_iff.mp hu
    have hcollection := Spells.single_iff.mp hv
    have hspine := Spine.collection (Option.isSome_of_eq_some hword) (hcollection.readable rfl)
      (of_decide_eq_true hcollection.heads) .nil
    rwa [List.append_nil] at hspine
  | invocation segments =>
    obtain ⟨u₁, v, rfl, hu₁, hv⟩ := Spells.qualified_iff.mp hu
    obtain ⟨hv, hparen⟩ := (Spells.single_iff.mp hv).arguments
    have hspine := Spine.invocation hu₁ hv hparen .nil
    rwa [List.append_nil] at hspine
  | bareName h =>
    obtain ⟨u₁, v, rfl, hu₁, hv⟩ := Spells.qualified_iff.mp hu
    obtain rfl := Spells.nil_iff.mp hv
    exact .bareName hu₁ h .nil
  | _ => cases hphrase

theorem Alternative.legible (alt : Alternative .plain phrase body kind)
    (hu : Spells Legible body u) : Legible phrase u where
  heads := alt.heads (fun hu => hu.heads) hu
  readable hphrase := alt.readable hphrase hu
  spine hphrase := alt.spine hphrase hu

/-- Every sentence is read to its end. -/
theorem Sentence.readable (h : Sentence w) (hs : s.lexemes = w) (hfair : Fair w) :
    ∃ n r xs, Reads .byText n [.part .compilationUnit] s r xs := by
  have hspells : Spells Legible [.part .compilationUnit] w :=
    Derives.spells (fun alt hu => alt.legible hu) h
  have hreadable := (Spells.single_iff.mp hspells).readable rfl
  obtain ⟨r, ⟨n, xs, hr⟩, -⟩ := hreadable s [] (by rw [hs, List.append_nil]) (hs ▸ hfair) rfl
  exact ⟨n, r, xs, hr⟩

end GoloSyntax
