import GoloSyntax.Proofs.Reading.Faults
import GoloSyntax.Proofs.Shape.Literals
import GoloSyntax.Proofs.Token.Scientific

/-! # Numbers with a fraction or an exponent are never refused

Where an integer that is too large ends parsing, a number with a fraction or an exponent is rounded,
and one that is too large becomes an infinity of the tree (`infinite_literal_of_exponent`).
-/
namespace GoloSyntax

open Reading

variable {source : String} {limits : Limits} {stream : TokenStream} {kind : NumberKind}

/-- A number stands where its token does, and its literal is what it amounts to. -/
theorem exists_amounts_of_lex (hlex : lex source limits = .ok stream)
    (hkind : kind = .float ∨ kind = .double) {token : Token} (htoken : token ∈ stream.tokens)
    (hnumber : token.kind = .number kind) : ∃ before u after value,
      Stands source.toList token.span before u after ∧ Amounts kind u value ∧
        (token.lexeme stream.symbols).literal? = some (kind.floating value) := by
  obtain ⟨before, u, after, hstands, hu, htext⟩ := numeral_of_lex hlex htoken hnumber
  obtain ⟨value, hamounts, hvalue⟩ := hu.exists_amounts hkind
  have hlexeme : token.lexeme stream.symbols = ⟨.number kind, some (String.ofList u)⟩ :=
    congrArg₂ Lexeme.mk hnumber htext
  rw [hlexeme]
  exact ⟨before, u, after, value, hstands, hamounts, hvalue⟩

/-- A literal with a single or double value is a number of that kind. -/
theorem kind_of_literal?_floating {l : Lexeme} (hkind : kind = .float ∨ kind = .double)
    {value : Floating} (h : l.literal? = some (kind.floating value)) : l.kind = .number kind := by
  obtain ⟨lkind, text⟩ := l
  cases lkind with
  | number k =>
    obtain ⟨u, -, hu⟩ := Option.bind_eq_some_iff.mp h
    cases k with
    | integer | long =>
      obtain ⟨_, _, hvalue⟩ := Option.map_eq_some_iff.mp hu
      rcases hkind with rfl | rfl <;> cases hvalue
    | float =>
      obtain ⟨_, _, hvalue⟩ := Option.map_eq_some_iff.mp hu
      rcases hkind with rfl | rfl
      · rfl
      · cases hvalue
    | double =>
      obtain ⟨_, _, hvalue⟩ := Option.map_eq_some_iff.mp hu
      rcases hkind with rfl | rfl
      · cases hvalue
      · rfl
  | keyword word => rcases hkind with rfl | rfl <;> cases word <;> cases h
  | string | character =>
    obtain ⟨u, -, hu⟩ := Option.map_eq_some_iff.mp h
    rcases hkind with rfl | rfl <;> cases hu
  | _ => cases h

/-- No number of such a kind ends parsing for want of a value. -/
theorem fault_ne_invalidNumber (hlex : lex source limits = .ok stream)
    (hkind : kind = .float ∨ kind = .double) {e : ParseError}
    (h : parse stream limits = .error e) (text : String) : e.fault ≠ .invalidNumber kind text := by
  intro hfault
  obtain ⟨i, -, -, hconcerns⟩ := concerns_of_parse (tiles_of_lex hlex).2.1 h
  rw [hfault] at hconcerns
  cases hconcerns with
  | invalidNumber hnumber htext hvalue =>
    -- The number is a token of the stream, which has a value, or the end of input, which is none.
    rcases stream.lexemeAt_mem i with hmem | hend
    · obtain ⟨token, htoken, hlexeme⟩ := List.mem_map.mp hmem
      rw [← hlexeme] at hnumber htext
      obtain ⟨-, -, -, value, -, -, hliteral⟩ :=
        exists_amounts_of_lex hlex hkind (Array.mem_toList_iff.mp htoken) hnumber
      have hrefused : (token.lexeme stream.symbols).literal? = none := by
        rw [Lexeme.literal?, hnumber]
        simp [htext, hvalue]
      rw [hrefused] at hliteral
      cases hliteral
    · rw [hend] at hnumber
      cases hnumber

/-- Every number with a fraction or an exponent is a literal of the tree, rounded to the nearest
value, which is infinite if it is too large.  None is ever the end of parsing. -/
theorem floating_literals_round (source : String) (limits : Limits) (stream : TokenStream)
    (hlex : lex source limits = .ok stream) (kind : NumberKind)
    (hkind : kind = .float ∨ kind = .double) :
    (∀ token ∈ stream.tokens, token.kind = .number kind → ∃ before u after value,
      Stands source.toList token.span before u after ∧ Amounts kind u value ∧
        ∀ t, parseSource source limits = .ok t → ∃ id, id.index < t.size ∧
          t.kind id = .literal (kind.floating value) ∧ t.span id = token.span) ∧
    (∀ t, parseSource source limits = .ok t → ∀ id, id.index < t.size → ∀ value,
      t.kind id = .literal (kind.floating value) → ∃ before u after,
        Stands source.toList (t.span id) before u after ∧ Amounts kind u value) ∧
    ∀ e, parseSource source limits = .error e → ∀ text, e.fault ≠ .invalidNumber kind text := by
  have hparse : parseSource source limits = parse stream limits := by
    rw [parseSource, hlex]
  rw [hparse]
  refine ⟨fun token htoken hnumber => ?_, fun t ht id hid value hvalue => ?_,
    fun e he text => fault_ne_invalidNumber hlex hkind he text⟩
  · obtain ⟨before, u, after, value, hstands, hamounts, hliteral⟩ :=
      exists_amounts_of_lex hlex hkind htoken hnumber
    exact ⟨before, u, after, value, hstands, hamounts, fun t ht =>
      exists_node_of_literal hlex ht htoken hliteral⟩
  · obtain ⟨token, htoken, hliteral, hspan⟩ := exists_token_of_literal hlex ht hid hvalue
    obtain ⟨before, u, after, value', hstands, hamounts, hliteral'⟩ :=
      exists_amounts_of_lex hlex hkind htoken (kind_of_literal?_floating hkind hliteral)
    have hsame : value' = value := by
      have := hliteral'.symm.trans hliteral
      rcases hkind with rfl | rfl <;> simpa [NumberKind.floating] using this
    exact ⟨before, u, after, hspan ▸ hstands, hsame ▸ hamounts⟩

/-- Whether the tree of a source has a literal of a value is found by looking through its nodes. -/
theorem exists_literal_of_any {value : Literal} (h : ((parseSource source limits).toOption.any
    fun t => (List.range t.size).any fun i => t.kind ⟨i⟩ = .literal value) = true) :
    ∃ t id, parseSource source limits = .ok t ∧ id.index < t.size ∧ t.kind id = .literal value := by
  obtain ⟨t, hparse, hany⟩ := exists_ok_of_any h
  obtain ⟨i, hi, hkind⟩ := List.any_eq_true.mp hany
  exact ⟨t, ⟨i⟩, hparse, List.mem_range.mp hi, of_decide_eq_true hkind⟩

/-- The largest number below where single values overflow is the largest single value. -/
theorem floating_literals_round_below_overflow :
    ∃ stream t, lex "module m\nfunction f = -> 340282356779733661637539395458142568447.0_F" {} =
      .ok stream ∧
    parseSource "module m\nfunction f = -> 340282356779733661637539395458142568447.0_F" {} = .ok t ∧
    ∃ id, id.index < t.size ∧ t.kind id = .literal (.float (.finite false 16777215 104)) ∧
      ∃ before u after,
        Stands "module m\nfunction f = -> 340282356779733661637539395458142568447.0_F".toList
          (t.span id) before u after ∧ Amounts .float u (.finite false 16777215 104) := by
  obtain ⟨t, id, hparse, hid, hkind⟩ : ∃ t id,
      parseSource "module m\nfunction f = -> 340282356779733661637539395458142568447.0_F" {} = .ok t ∧
        id.index < t.size ∧ t.kind id = .literal (.float (.finite false 16777215 104)) :=
    exists_literal_of_any (by decide +kernel)
  cases hlex : lex "module m\nfunction f = -> 340282356779733661637539395458142568447.0_F" {} with
  | error e =>
    rw [parseSource, hlex] at hparse
    cases hparse
  | ok stream =>
    have hround := (floating_literals_round _ {} stream hlex .float (.inl rfl)).2.1
    exact ⟨stream, t, rfl, hparse, id, hid, hkind, hround t hparse id hid _ hkind⟩

/-- A number that is too large for its type is read all the same, and its literal is infinite. -/
theorem infinite_literal_of_exponent :
    ∃ t id, parseSource "module m\nfunction f = -> 1e999" {} = .ok t ∧ id.index < t.size ∧
      t.kind id = .literal (.double (.infinite false)) :=
  exists_literal_of_any (by decide +kernel)

end GoloSyntax
