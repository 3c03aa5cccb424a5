import GoloSyntax.Proofs.Reading.Faults
import GoloSyntax.Proofs.Text.OneLine
import GoloSyntax.Proofs.Token.Munch

/-! # Diagnostics are one line

A diagnostic quotes characters of the source: the one that begins no token, the one behind a
backslash, the text of an identifier or a number.  Line feeds are tokens of their own and no part
of words and numbers, so there is one way only for them to be quoted: a backslash at the end of
a line within a literal (`newline_mem_display_iff`).
-/
namespace GoloSyntax

theorem TokenKind.isOneLine_describe (kind : TokenKind) : isOneLine kind.describe := by
  cases kind with
  | keyword word => cases word <;> decide
  | mark sign => cases sign <;> decide
  | identifier | newline | endOfInput | character => rfl
  | number _ => exact (rfl : isOneLine "number" = true)
  | string _ => exact (rfl : isOneLine "string" = true)

theorem Expected.isOneLine_describe (x : Expected) : isOneLine x.describe := by
  cases x with
  | token kind => exact kind.isOneLine_describe
  | name role => cases role <;> rfl
  | expression => rfl

/-! ## Cutting a source up -/

theorem isOneLine_overrun {what : String} (h : isOneLine what) (length max : Nat) :
    isOneLine (overrun what length max) := by
  simp only [overrun, isOneLine_append, isOneLine_toString, h]
  rfl

theorem isOneLine_quote (before after : String) (c : Char) (hbefore : isOneLine before)
    (hafter : isOneLine after) :
    isOneLine (before ++ c.toString ++ after) = (some c != some '\n') := by
  simp only [isOneLine_append, isOneLine_char, hbefore, hafter, Bool.true_and, Bool.and_true]
  rfl

namespace LexicalFault

/-- The character of the source that a fault is about. -/
def quoted? : LexicalFault → Option Char
  | unexpectedCharacter c | invalidNumberSuffix c | unknownEscape c => some c
  | _ => none

/-- The wording of a fault has a line feed only if the fault quotes one. -/
theorem isOneLine_message (fault : LexicalFault) :
    isOneLine fault.message = (fault.quoted? != some '\n') := by
  cases fault with
  | unexpectedCharacter c => exact isOneLine_quote "Unexpected character: '" "'" c rfl rfl
  | invalidNumberSuffix c => exact isOneLine_quote "Invalid numeric suffix '_" "'" c rfl rfl
  | unknownEscape c => exact isOneLine_quote "Unknown escape sequence '\\" "'" c rfl rfl
  | inputTooLarge size max => exact isOneLine_overrun rfl size max
  | commentTooLong length max => exact isOneLine_overrun rfl length max
  | identifierTooLong length max => exact isOneLine_overrun rfl length max
  | stringTooLong length max => exact isOneLine_overrun rfl length max
  | tooManyTokens count max =>
    show isOneLine ("Token limit exceeded: " ++ toString count ++ " tokens (max: " ++
      toString max ++ ")") = true
    simp only [isOneLine_append, isOneLine_toString]
    rfl
  | _ => rfl

/-- A line feed is quoted only where it stands behind a backslash. -/
def IsPlain (fault : LexicalFault) : Prop := fault.quoted? = some '\n' → fault = unknownEscape '\n'

/-- A fault that says something of another character, or of none, is plain. -/
theorem IsPlain.of_ne {fault : LexicalFault} (h : fault.quoted? ≠ some '\n') : fault.IsPlain :=
  fun hquoted => absurd hquoted h

end LexicalFault

/-- Reading may fail with a plain fault only. -/
def FailsPlainly {α : Type} (x : Except Refusal α) : Prop :=
  ∀ r, x = .error r → r.fault.IsPlain

namespace FailsPlainly

variable {α β : Type}

theorem ok (a : α) : FailsPlainly (.ok a) := nofun

theorem error {r : Refusal} (h : r.fault.IsPlain) : FailsPlainly (.error r : Except Refusal α) := by
  rintro _ ⟨⟩
  exact h

theorem bind {x : Except Refusal α} {f : α → Except Refusal β} (hx : FailsPlainly x)
    (hf : ∀ a, FailsPlainly (f a)) : FailsPlainly (Except.bind x f) := by
  cases x with
  | error r => exact error (hx r rfl)
  | ok a => exact hf a

theorem exponent (c : Cursor) : FailsPlainly c.exponent := by
  unfold Cursor.exponent
  split
  · split
    · dsimp only
      split
      · exact error (.of_ne (by simp [LexicalFault.quoted?]))
      · exact ok _
    · exact ok _
  · exact ok _

theorem numberSuffix (fractional : Bool) (c : Cursor) : FailsPlainly (c.numberSuffix fractional) := by
  unfold Cursor.numberSuffix
  dsimp only
  split
  · split
    · exact error (.of_ne (by simp [LexicalFault.quoted?]))
    · exact ok _
  · split
    · exact ok _
    · exact error (.of_ne (by simp [LexicalFault.quoted?]))
  · exact ok _

theorem scanNumber (c : Cursor) : FailsPlainly (scanNumber c) := by
  refine (exponent _).bind fun _ => (numberSuffix _ _).bind fun _ => ?_
  dsimp only
  split
  · exact error (.of_ne (by simp [LexicalFault.quoted?]))
  · exact ok _

theorem scanWord (max : Nat) (c : Cursor) : FailsPlainly (scanWord max c) := by
  simp only [GoloSyntax.scanWord]
  split
  · exact error (.of_ne (by simp [LexicalFault.quoted?]))
  · exact ok _

theorem scanMark (c : Cursor) : FailsPlainly (scanMark c) := by
  unfold GoloSyntax.scanMark
  split
  · exact ok _
  · split
    · exact ok _
    · next hne =>
      split
      · exact ok _
      · split
        · exact error (.of_ne (by simp [LexicalFault.quoted?]))
        -- A line feed would have been read.
        · exact error fun hquoted => absurd (Option.some.inj hquoted) hne

theorem scanStandardFrom (content : List Char) (p : Position) (cs : List Char) :
    FailsPlainly (scanStandardFrom content p cs) := by
  fun_induction GoloSyntax.scanStandardFrom content p cs with
  | case1 => exact error (.of_ne (by simp [LexicalFault.quoted?]))
  | case2 => exact error (.of_ne (by simp [LexicalFault.quoted?]))
  | case3 => assumption
  | case4 => exact error fun hquoted => congrArg LexicalFault.unknownEscape (Option.some.inj hquoted)
  | case5 => exact error (.of_ne (by simp [LexicalFault.quoted?]))
  | case6 => exact ok _
  | case7 => assumption

theorem stringLexeme (max : Nat) (kind : StringKind) (start : Cursor) (content : List Char)
    (c : Cursor) : FailsPlainly (stringLexeme max kind start content c) := by
  simp only [GoloSyntax.stringLexeme]
  split
  · exact error (.of_ne (by simp [LexicalFault.quoted?]))
  · exact ok _

theorem scanString (max : Nat) (c : Cursor) : FailsPlainly (scanString max c) := by
  unfold GoloSyntax.scanString
  split
  · refine bind ?_ fun _ => stringLexeme _ _ _ _ _
    simp only [scanMultiLine]
    split
    · exact error (.of_ne (by simp [LexicalFault.quoted?]))
    · exact ok _
  · exact (scanStandardFrom _ _ _).bind fun _ => stringLexeme _ _ _ _ _

theorem scanCharacter (c : Cursor) : FailsPlainly (scanCharacter c) := by
  refine bind ?_ fun _ => ?_
  · unfold scanCharacterValue
    split
    · exact error (.of_ne (by simp [LexicalFault.quoted?]))
    · exact error (.of_ne (by simp [LexicalFault.quoted?]))
    · split
      · exact ok _
      · exact error fun hquoted => congrArg LexicalFault.unknownEscape (Option.some.inj hquoted)
    · split
      · exact error (.of_ne (by simp [LexicalFault.quoted?]))
      · split
        · exact error (.of_ne (by simp [LexicalFault.quoted?]))
        · exact ok _
  · dsimp only
    split
    · exact ok _
    · exact error (.of_ne (by simp [LexicalFault.quoted?]))

theorem scanLexeme (limits : Limits) (c : Cursor) : FailsPlainly (scanLexeme limits c) := by
  unfold GoloSyntax.scanLexeme
  split
  · exact ok _
  · split
    · exact scanNumber c
    · split
      · exact scanWord _ c
      · split
        · exact scanString _ c
        · split
          · exact scanCharacter c
          · exact scanMark c

theorem checkComment (max start : Nat) (c : Cursor) : FailsPlainly (checkComment max start c) := by
  simp only [GoloSyntax.checkComment]
  split
  · exact error (.of_ne (by simp [LexicalFault.quoted?]))
  · exact ok _

theorem skipTriviaFrom (max : Nat) (comment : Option Nat) (p : Position) (cs : List Char) :
    FailsPlainly (skipTriviaFrom max comment p cs) := by
  fun_induction GoloSyntax.skipTriviaFrom max comment p cs with
  | case1 => exact ok _
  | case2 => exact checkComment _ _ _
  | case3 => assumption
  | case4 => assumption
  | case5 => exact ok _
  | case6 => exact checkComment _ _ _
  | case7 => assumption

theorem scan (limits : Limits) (c : Cursor) : FailsPlainly (scan limits c) :=
  (skipTriviaFrom _ _ _ _).bind fun start => (scanLexeme limits start).bind fun _ => ok _

end FailsPlainly

theorem isPlain_of_next {l : Lexer} {e : LexicalError} (h : l.next.1 = .error e) :
    e.fault.IsPlain := by
  obtain ⟨limits, c, count, symbols⟩ := l
  simp only [Lexer.next] at h
  split at h
  · obtain rfl := Except.error.inj h
    exact .of_ne (by simp [LexicalFault.quoted?])
  · cases hs : scan limits c with
    | error r =>
      rw [hs] at h
      obtain rfl := Except.error.inj h
      exact FailsPlainly.scan limits c r hs
    | ok answer =>
      rw [hs] at h
      cases h

theorem isPlain_of_collect {n : Nat} {l : Lexer} {tokens : Array Token} {e : LexicalError}
    (h : l.collect n tokens = .error e) : e.fault.IsPlain := by
  obtain ⟨l', -, he⟩ := Lexer.exists_next_of_collect_error (P := fun _ => True)
    (fun _ => id) trivial h
  exact isPlain_of_next he

/-- A source that cannot be cut up has a line feed in the diagnostic only behind a backslash. -/
theorem isPlain_of_lex {source : String} {limits : Limits} {e : LexicalError}
    (h : lex source limits = .error e) : e.fault.IsPlain := by
  simp only [lex, Lexer.ofSource] at h
  split at h
  · obtain rfl := Except.error.inj h
    exact .of_ne (by simp [LexicalFault.quoted?])
  · exact isPlain_of_collect h

/-! ## Reading the tokens of a source -/

/-- The text of a word or a number has no line feed. -/
theorem Cut.isOneLine_text {u v : List Char} {l : Lexeme} {text : String} (h : Cut v u l)
    (hkind : l.kind = .identifier ∨ ∃ kind, l.kind = .number kind) (htext : l.text = some text) :
    isOneLine text := by
  have hnewline : '\n' ∉ u := fun hmem => by
    rcases h.newline_or_multiLine hmem with hl | hl <;> simp [hl] at hkind
  cases h with
  | word =>
    rcases Lexeme.kind_ofWord (String.ofList u) with ⟨k, hk, -⟩ | ⟨hk, -⟩
    · simp [hk] at htext
    · obtain rfl : String.ofList u = text := by simpa [hk] using htext
      simpa [isOneLine_iff] using hnewline
  | number =>
    obtain rfl := Option.some.inj htext
    simpa [isOneLine_iff] using hnewline
  | newline | mark => cases htext
  | string | character => simp at hkind

theorem isOneLine_describeWanted (expected : List Expected) :
    isOneLine (ParseFault.describeWanted expected) := by
  match expected with
  | [] => rfl
  | [x] => exact x.isOneLine_describe
  | x :: y :: rest =>
    have h : isOneLine (", ".intercalate ((x :: y :: rest).map Expected.describe)) := by
      refine isOneLine_intercalate rfl fun part hpart => ?_
      obtain ⟨z, -, rfl⟩ := List.mem_map.mp hpart
      exact z.isOneLine_describe
    show isOneLine ("one of " ++ ", ".intercalate ((x :: y :: rest).map Expected.describe)) = true
    rw [isOneLine_append, h]
    rfl

theorem isOneLine_describeFound {kind : TokenKind} {text : Option String}
    (h : kind = .identifier → ∀ name, text = some name → isOneLine name) :
    isOneLine (ParseFault.describeFound kind text) := by
  by_cases hkind : kind = .identifier
  · have hname : isOneLine (text.getD "") := by
      cases text with
      | none => rfl
      | some name => exact h hkind name rfl
    subst hkind
    show isOneLine ("identifier '" ++ text.getD "" ++ "'") = true
    simp only [isOneLine_append, hname]
    rfl
  · have heq : ParseFault.describeFound kind text = kind.describe := by
      cases kind with
      | identifier => exact absurd rfl hkind
      | _ => rfl
    rw [heq]
    exact kind.isOneLine_describe

/-- What is said about a token has no line feed if its text has none. -/
theorem ParseFault.Concerns.isOneLine_message {fault : ParseFault} {x : Lexeme}
    (h : fault.Concerns x) (hx : ∀ text, x.kind = .identifier ∨ (∃ kind, x.kind = .number kind) →
      x.text = some text → isOneLine text) : isOneLine fault.message := by
  cases h with
  | @unexpected expected hne _ =>
    show isOneLine ("Expected " ++ describeWanted expected ++ ", found " ++
      describeFound x.kind x.text) = true
    simp only [isOneLine_append, isOneLine_describeWanted,
      isOneLine_describeFound fun hkind name => hx name (.inl hkind)]
    rfl
  | literalWithoutText =>
    show isOneLine ("Literal " ++ x.kind.describe ++ " without text") = true
    simp only [isOneLine_append, TokenKind.isOneLine_describe]
    rfl
  | @invalidNumber kind text hkind htext _ =>
    show isOneLine ("Invalid " ++ kind.word ++ " literal '" ++ text ++ "'") = true
    simp only [isOneLine_append, hx text (.inr ⟨kind, hkind⟩) htext]
    cases kind <;> rfl
  | tooDeep max =>
    show isOneLine ("Nesting too deep: " ++ toString max ++ " levels (max " ++ toString max ++ ")") =
      true
    simp only [isOneLine_append, isOneLine_toString]
    rfl
  | tooManyNodes count max =>
    show isOneLine ("AST node limit exceeded: " ++ toString count ++ " nodes (max " ++
      toString max ++ ")") = true
    simp only [isOneLine_append, isOneLine_toString]
    rfl

/-- What a diagnostic puts around its wording has no line feed. -/
theorem ParseError.isOneLine_display (e : ParseError) : isOneLine e.display = isOneLine e.message := by
  have hfront : isOneLine ("Parse error at " ++ e.position.display ++ ": ") = true := by
    rw [isOneLine_append, isOneLine_append, e.position.isOneLine_display]
    rfl
  calc isOneLine e.display
    _ = (isOneLine ("Parse error at " ++ e.position.display ++ ": ") && isOneLine e.message) :=
        isOneLine_append _ _
    _ = isOneLine e.message := by rw [hfront, Bool.true_and]

/-- A diagnostic has a line feed exactly if it quotes one that stands behind a backslash. -/
theorem newline_mem_display_iff {source : String} {limits : Limits} {e : ParseError}
    (h : parseSource source limits = .error e) :
    '\n' ∈ e.display.toList ↔ e.fault = .lexical (.unknownEscape '\n') := by
  have hiff : '\n' ∈ e.display.toList ↔ isOneLine e.message = false := by
    rw [← e.isOneLine_display, ← Bool.not_eq_true, isOneLine_iff, not_not]
  rw [hiff]
  simp only [parseSource] at h
  split at h
  · next e' hlex =>
    obtain rfl := Except.error.inj h
    show isOneLine e'.fault.message = false ↔ ParseFault.lexical e'.fault = _
    rw [LexicalFault.isOneLine_message, bne_eq_false_iff_eq, ParseFault.lexical.injEq]
    exact ⟨isPlain_of_lex hlex, fun hfault => by rw [hfault]; rfl⟩
  · next stream hlex =>
    obtain ⟨htiles, hresolves, -⟩ := tiles_of_lex hlex
    obtain ⟨i, -, -, hconcerns⟩ := concerns_of_parse hresolves h
    have hone : isOneLine e.message := by
      refine hconcerns.isOneLine_message fun text hkind htext => ?_
      rcases stream.lexemeAt_mem i with hmem | hend
      · rw [TokenStream.lexemes_eq] at hmem
        obtain ⟨x, hx, hlexeme⟩ := List.mem_map.mp hmem
        rcases htiles.cut_of_mem x hx with hend | ⟨u, v, hcut⟩
        · simp [← hlexeme, hend] at hkind
        · exact hcut.isOneLine_text (hlexeme ▸ hkind) (hlexeme ▸ htext)
      · simp [hend] at hkind
    rw [hone]
    refine ⟨nofun, fun hfault => ?_⟩
    rw [hfault] at hconcerns
    cases hconcerns

/-- A name that is asked for in vain is quoted on the same line. -/
theorem display_of_misplaced_name : ∃ e, parseSource "module m n" {} = .error e ∧
    '\n' ∉ e.display.toList := by
  have hparse : (failure? (parseSource "module m n" {})).map (·.fault) =
      some (.unexpected [.token .newline, .token .endOfInput] .identifier (some "n")) := by
    decide +kernel
  cases h : parseSource "module m n" {} with
  | ok t =>
    rw [h] at hparse
    cases hparse
  | error e =>
    rw [h] at hparse
    have hfault : e.fault = _ := Option.some.inj hparse
    exact ⟨e, rfl, fun hmem => by
      have := (newline_mem_display_iff h).mp hmem
      rw [hfault] at this
      cases this⟩

/-- The end of a line behind a backslash is quoted as it is. -/
theorem display_of_escaped_newline :
    (match parseSource "module m\nfunction f = -> \"\\\n\"" {} with
    | .ok _ => false
    | .error e => e.display.toList.contains '\n') = true := by
  decide +kernel

end GoloSyntax
